import Mathlib.Data.List.Nodup
import Mathlib.Data.List.Perm.Subperm
import Mathlib.Data.List.Range
import RustCodeMcp.Embeddings.Batching
import RustCodeMcp.Indexing.Error

/-!
# Batched embedding

The texts are sorted by length, cut into batches, embedded out of order and written back to their
original positions. Every position is written once: the batches put together are the sorted inputs,
and those are a permutation of the texts with their positions. What a batch comes back with is
`zip`ped with its inputs, so too few vectors leave a position unwritten and the run fails; too many
go unnoticed, where the remote path counts them.

**Positions and vectors part company and have to be brought together again.** The inputs carry their
positions through sorting and cutting, the answers carry none; a batch and its answer are paired off
in order, so position and vector belong together as long as every answer is at least as long as its
batch. Where one is shorter, a position stays empty and the last step, which asks for all of them,
fails (`length_le_of_generate_eq_ok`). Where one is longer, the surplus is dropped without a word.

How the generator computes its vectors is not looked at; only a statement about texts, one by one,
needs that it treats them one by one (`generate_of_pointwise`).
-/

namespace RustCodeMcp

variable {E : Type}

/-- Raw and model-capped token length for one embedding input. -/
structure EmbeddingTextLen where
  rawTokens : ℕ
  cappedTokens : ℕ

/-- A text with its position among the texts of the call. -/
structure EmbeddingInput where
  originalIdx : ℕ
  text : String
  tokenLen : Option EmbeddingTextLen

/-- What an input counts for: its capped tokens, or its bytes where tokens were not counted. -/
def EmbeddingInput.len (input : EmbeddingInput) : ℕ :=
  (input.tokenLen.map (·.cappedTokens)).getD input.text.utf8ByteSize

/-- The inputs, sorted by length. -/
def sortEmbeddingInputs (orderedTexts : List EmbeddingInput) : List EmbeddingInput :=
  orderedTexts.mergeSort fun a b ↦
    decide (a.len < b.len ∨ a.len = b.len ∧ a.originalIdx ≤ b.originalIdx)

/-- The cut of the sorted inputs by the policy. -/
def planEmbeddingBatches (orderedTexts : List EmbeddingInput) (policy : BatchingPolicy) :
    List BatchPlan :=
  policy.plan orderedTexts EmbeddingInput.len

/-- The batcher. `embedDocuments` is the generator's answer to a batch, given the number of the
call: nothing is assumed of it, not even that it answers the same batch twice alike. -/
structure EmbeddingBatcher (E : Type) where
  embedDocuments : ℕ → List String → Except String (List E)
  /-- Whether the runtime is the remote one. -/
  openRouter : Bool
  batchingPolicy : BatchingPolicy
  /-- Token lengths by position, when they can be counted. -/
  countTokenLengths : List String → Option (ℕ → EmbeddingTextLen)

/-- Write each value to its position. -/
def scatter (writes : List (ℕ × E)) (all : List (Option E)) : List (Option E) :=
  writes.foldl (fun all (idx, e) ↦ all.set idx (some e)) all

namespace EmbeddingBatcher

variable (batcher : EmbeddingBatcher E)

/-- The inputs in the order they are embedded in. -/
def orderedTexts (chunkTexts : List String) : List EmbeddingInput :=
  let tokenLengths := batcher.countTokenLengths chunkTexts
  let orderedTexts := chunkTexts.zipIdx.map fun (text, idx) ↦
    { originalIdx := idx, text, tokenLen := tokenLengths.map (· idx) }
  if batcher.batchingPolicy.sortsByLength then sortEmbeddingInputs orderedTexts else orderedTexts

/-- One turn of the loop over the plan. -/
def embedBatch (orderedTexts : List EmbeddingInput) (allEmbeddings : List (Option E))
    (plan : BatchPlan × ℕ) : Except IndexingError (List (Option E)) :=
  let chunkBatch := plan.1.slice orderedTexts
  let batchTexts := chunkBatch.map (·.text)
  match batcher.embedDocuments plan.2 batchTexts with
  | .error message => .error (.embedding message)
  | .ok batchEmbeddings =>
    .ok (scatter ((chunkBatch.map (·.originalIdx)).zip batchEmbeddings) allEmbeddings)

/-- The remote path: the generator is asked once, and its answers are counted. -/
def generateOpenrouterEmbeddings (chunkTexts : List String) : Except IndexingError (List E) :=
  match batcher.embedDocuments 0 chunkTexts with
  | .error message => .error (.embedding message)
  | .ok embeddings =>
    if embeddings.length ≠ chunkTexts.length then
      .error (.parser ("OpenRouter returned " ++ toString embeddings.length ++
        " embeddings for " ++ toString chunkTexts.length ++ " chunks"))
    else .ok embeddings

/-- Generate embeddings for texts in batches. -/
def generateEmbeddingsBatched (chunkTexts : List String) : Except IndexingError (List E) :=
  if batcher.openRouter then batcher.generateOpenrouterEmbeddings chunkTexts else
    let orderedTexts := batcher.orderedTexts chunkTexts
    let batchPlan := planEmbeddingBatches orderedTexts batcher.batchingPolicy
    match batchPlan.zipIdx.foldlM (batcher.embedBatch orderedTexts)
        (List.replicate orderedTexts.length none) with
    | .error e => .error e
    | .ok allEmbeddings =>
      match allEmbeddings.mapM id with
      | some embeddings => .ok embeddings
      | none => .error (.parser "Embedding result ordering failed")

end EmbeddingBatcher

/-! ### Writing values to their positions -/

@[simp] theorem scatter_nil (all : List (Option E)) : scatter [] all = all := rfl

@[simp] theorem scatter_cons (write : ℕ × E) (writes : List (ℕ × E)) (all : List (Option E)) :
    scatter (write :: writes) all = scatter writes (all.set write.1 (some write.2)) := rfl

theorem scatter_append (writes writes' : List (ℕ × E)) (all : List (Option E)) :
    scatter (writes ++ writes') all = scatter writes' (scatter writes all) :=
  List.foldl_append

@[simp] theorem length_scatter (writes : List (ℕ × E)) (all : List (Option E)) :
    (scatter writes all).length = all.length := by
  induction writes generalizing all with
  | nil => rfl
  | cons write writes ih => rw [scatter_cons, ih, List.length_set]

/-- A position nothing is written to keeps what it had. -/
theorem getElem?_scatter_of_notMem {writes : List (ℕ × E)} {idx : ℕ} (all : List (Option E))
    (h : idx ∉ writes.map Prod.fst) : (scatter writes all)[idx]? = all[idx]? := by
  induction writes generalizing all with
  | nil => rfl
  | cons write writes ih =>
    obtain ⟨hne, hrest⟩ : idx ≠ write.1 ∧ idx ∉ writes.map Prod.fst := by simpa using h
    rw [scatter_cons, ih _ hrest, List.getElem?_set_ne hne.symm]

/-- **A position written once holds what was written to it**, whatever the order of the writes. -/
theorem getElem?_scatter_of_mem (all : List (Option E)) {writes : List (ℕ × E)} {idx : ℕ} {e : E}
    (hnodup : (writes.map Prod.fst).Nodup) (hmem : (idx, e) ∈ writes) (hlt : idx < all.length) :
    (scatter writes all)[idx]? = some (some e) := by
  induction writes generalizing all with
  | nil => exact absurd hmem List.not_mem_nil
  | cons write writes ih =>
    rw [List.map_cons, List.nodup_cons] at hnodup
    rw [scatter_cons]
    rcases List.mem_cons.1 hmem with rfl | hrest
    · rw [getElem?_scatter_of_notMem _ hnodup.1, List.getElem?_set_self hlt]
    · exact ih _ hnodup.2 hrest (by rwa [List.length_set])

theorem mapM_id_eq_some_iff {all : List (Option E)} {es : List E} :
    all.mapM id = some es ↔ all = es.map some := by
  induction all generalizing es with
  | nil => cases es <;> simp
  | cons a all ih =>
    rcases a with - | a
    · cases es <;> simp
    · cases es with
      | nil => simp [Option.bind_eq_some_iff]
      | cons e es => simp [Option.bind_eq_some_iff, ih, and_comm]

theorem exists_map_some {all : List (Option E)} (h : ∀ a ∈ all, a.isSome) :
    ∃ es : List E, es.map some = all := by
  induction all with
  | nil => exact ⟨[], rfl⟩
  | cons a all ih =>
    obtain ⟨ha, hall⟩ := List.forall_mem_cons.1 h
    obtain ⟨e, rfl⟩ := Option.isSome_iff_exists.1 ha
    obtain ⟨es, rfl⟩ := ih hall
    exact ⟨e :: es, rfl⟩

/-- When pairing off pieces loses no position, no piece was too short. -/
theorem forall_length_le_of_length_zip {ι : Type} {f : ι → List ℕ} {g : ι → List E} {l : List ι}
    (h : (l.flatMap f).length ≤ (l.flatMap fun i ↦ (f i).zip (g i)).length) :
    ∀ i ∈ l, (f i).length ≤ (g i).length := by
  have hle : ∀ l : List ι, (l.flatMap fun i ↦ (f i).zip (g i)).length ≤ (l.flatMap f).length := by
    intro l
    induction l with
    | nil => exact Nat.le_refl 0
    | cons i l ih =>
      simp only [List.flatMap_cons, List.length_append, List.length_zip]
      omega
  induction l with
  | nil => simp
  | cons i l ih =>
    have hrest := hle l
    simp only [List.flatMap_cons, List.length_append, List.length_zip] at h
    exact List.forall_mem_cons.2 ⟨by omega, ih (by omega)⟩

/-! ### What a run of the batches writes -/

namespace EmbeddingBatcher

variable (batcher : EmbeddingBatcher E) (chunkTexts : List String)

/-- **Sorting only permutes**: the inputs are the texts, each with its position. -/
theorem orderedTexts_perm : ((batcher.orderedTexts chunkTexts).map
    fun input ↦ (input.text, input.originalIdx)).Perm chunkTexts.zipIdx := by
  have hmap : (chunkTexts.zipIdx.map fun p ↦ (⟨p.2, p.1,
      (batcher.countTokenLengths chunkTexts).map (· p.2)⟩ : EmbeddingInput)).map
      (fun input ↦ (input.text, input.originalIdx)) = chunkTexts.zipIdx := by
    rw [List.map_map]
    exact List.map_id _
  unfold orderedTexts
  dsimp only
  split_ifs
  · exact ((List.mergeSort_perm _ _).map _).trans (List.Perm.of_eq hmap)
  · exact List.Perm.of_eq hmap

theorem length_orderedTexts : (batcher.orderedTexts chunkTexts).length = chunkTexts.length := by
  have h := (batcher.orderedTexts_perm chunkTexts).length_eq
  rwa [List.length_map, List.length_zipIdx] at h

theorem originalIdx_perm : ((batcher.orderedTexts chunkTexts).map (·.originalIdx)).Perm
    (List.range chunkTexts.length) := by
  have h := (batcher.orderedTexts_perm chunkTexts).map Prod.snd
  rwa [List.map_map, List.zipIdx_map_snd, ← List.range_eq_range'] at h

/-- What is written when batch `k` comes back as `outs k`. -/
def writes (orderedTexts : List EmbeddingInput) (outs : ℕ → List E)
    (batchPlan : List (BatchPlan × ℕ)) : List (ℕ × E) :=
  batchPlan.flatMap fun plan ↦
    ((plan.1.slice orderedTexts).map (·.originalIdx)).zip (outs plan.2)

theorem writes_cons (orderedTexts : List EmbeddingInput) (outs : ℕ → List E)
    (plan : BatchPlan × ℕ) (rest : List (BatchPlan × ℕ)) :
    writes orderedTexts outs (plan :: rest) =
      ((plan.1.slice orderedTexts).map (·.originalIdx)).zip (outs plan.2) ++
        writes orderedTexts outs rest := rfl

/-- **The loop ends well exactly when every batch is answered**, and has then written every batch's
answers. -/
theorem foldlM_embedBatch_eq_ok_iff (orderedTexts : List EmbeddingInput)
    {batchPlan : List (BatchPlan × ℕ)} (hk : (batchPlan.map Prod.snd).Nodup)
    (all all' : List (Option E)) :
    batchPlan.foldlM (batcher.embedBatch orderedTexts) all = .ok all' ↔
      ∃ outs : ℕ → List E, (∀ plan ∈ batchPlan, batcher.embedDocuments plan.2
        ((plan.1.slice orderedTexts).map (·.text)) = .ok (outs plan.2)) ∧
        all' = scatter (writes orderedTexts outs batchPlan) all := by
  induction batchPlan generalizing all with
  | nil =>
    show Except.ok all = .ok all' ↔ _
    constructor
    · intro h
      exact ⟨fun _ ↦ [], by simp, (Except.ok.inj h).symm⟩
    · rintro ⟨outs, -, rfl⟩
      rfl
  | cons plan rest ih =>
    rw [List.map_cons, List.nodup_cons] at hk
    rw [List.foldlM_cons]
    rcases hplan : batcher.embedDocuments plan.2 ((plan.1.slice orderedTexts).map (·.text))
      with message | out
    · have herror : batcher.embedBatch orderedTexts all plan = .error (.embedding message) := by
        simp only [embedBatch, hplan]
      rw [herror]
      refine ⟨fun h ↦ (by cases h), fun ⟨outs, houts, _⟩ ↦ ?_⟩
      have := houts plan (List.mem_cons_self ..)
      rw [hplan] at this
      cases this
    · have hok : batcher.embedBatch orderedTexts all plan = .ok (scatter
          (((plan.1.slice orderedTexts).map (·.originalIdx)).zip out) all) := by
        simp only [embedBatch, hplan]
      rw [hok]
      show rest.foldlM _ _ = _ ↔ _
      rw [ih hk.2]
      constructor
      · rintro ⟨outs, houts, rfl⟩
        -- The number of the first batch is not used again, so its answer can be put there.
        have hne : ∀ p ∈ rest, p.2 ≠ plan.2 := fun p hp heq ↦
          hk.1 (heq ▸ List.mem_map_of_mem hp)
        refine ⟨Function.update outs plan.2 out, ?_, ?_⟩
        · refine List.forall_mem_cons.2 ⟨by rw [hplan, Function.update_self], fun p hp ↦ ?_⟩
          rw [houts p hp, Function.update_of_ne (hne p hp)]
        · have hrest : writes orderedTexts (Function.update outs plan.2 out) rest =
              writes orderedTexts outs rest := by
            refine List.flatMap_congr fun p hp ↦ ?_
            rw [Function.update_of_ne (hne p hp)]
          rw [writes_cons, scatter_append, hrest, Function.update_self]
      · rintro ⟨outs, houts, rfl⟩
        obtain ⟨hhead, hrest⟩ := List.forall_mem_cons.1 houts
        rw [hplan] at hhead
        obtain rfl := Except.ok.inj hhead
        exact ⟨outs, hrest, scatter_append _ _ _⟩

/-! ### Each text gets its own vector -/

/-- The numbered batches of a run over the local path. -/
def numberedPlan : List (BatchPlan × ℕ) :=
  (planEmbeddingBatches (batcher.orderedTexts chunkTexts) batcher.batchingPolicy).zipIdx

/-- The batches a call hands to the generator, each with the number of its call. -/
def batches : List (List String × ℕ) :=
  if batcher.openRouter then [(chunkTexts, 0)] else
    (batcher.numberedPlan chunkTexts).map fun plan ↦
      ((plan.1.slice (batcher.orderedTexts chunkTexts)).map (·.text), plan.2)

theorem nodup_numberedPlan : ((batcher.numberedPlan chunkTexts).map Prod.snd).Nodup := by
  rw [numberedPlan, List.zipIdx_map_snd]
  exact List.nodup_range'

/-- The batches put together are the inputs again, whatever is read off them. -/
theorem flatMap_numberedPlan {β : Type} (f : EmbeddingInput → β) :
    ((batcher.numberedPlan chunkTexts).flatMap fun plan ↦
      (plan.1.slice (batcher.orderedTexts chunkTexts)).map f) =
      (batcher.orderedTexts chunkTexts).map f := by
  have hcut := batcher.batchingPolicy.consecutive_plan (batcher.orderedTexts chunkTexts)
    EmbeddingInput.len
  have hslices := hcut.flatMap_slice_eq
  calc ((batcher.numberedPlan chunkTexts).flatMap fun plan ↦
        (plan.1.slice (batcher.orderedTexts chunkTexts)).map f)
      = ((batcher.numberedPlan chunkTexts).map Prod.fst).flatMap fun plan ↦
          (plan.slice (batcher.orderedTexts chunkTexts)).map f := by rw [List.flatMap_map]
    _ = (batcher.batchingPolicy.plan (batcher.orderedTexts chunkTexts) EmbeddingInput.len).flatMap
          fun plan ↦ (plan.slice (batcher.orderedTexts chunkTexts)).map f := by
        rw [numberedPlan, List.zipIdx_map_fst, planEmbeddingBatches]
    _ = (batcher.orderedTexts chunkTexts).map f := by rw [← List.map_flatMap, hslices]

/-- **A local run ends well exactly when every batch is answered by enough vectors**, and its result
is then what was written. -/
theorem generate_eq_ok_iff (hlocal : batcher.openRouter = false) {embeddings : List E} :
    batcher.generateEmbeddingsBatched chunkTexts = .ok embeddings ↔
      ∃ outs : ℕ → List E, (∀ plan ∈ batcher.numberedPlan chunkTexts,
        batcher.embedDocuments plan.2
          ((plan.1.slice (batcher.orderedTexts chunkTexts)).map (·.text)) = .ok (outs plan.2)) ∧
        embeddings.map some =
          scatter (writes (batcher.orderedTexts chunkTexts) outs (batcher.numberedPlan chunkTexts))
            (List.replicate chunkTexts.length none) := by
  have hloop := fun all' ↦ batcher.foldlM_embedBatch_eq_ok_iff
    (batcher.orderedTexts chunkTexts) (batcher.nodup_numberedPlan chunkTexts)
    (List.replicate (batcher.orderedTexts chunkTexts).length none) all'
  rw [length_orderedTexts] at hloop
  rw [generateEmbeddingsBatched, hlocal, if_neg Bool.false_ne_true]
  dsimp only
  rw [length_orderedTexts]
  split
  next e hrun =>
    refine ⟨fun h ↦ (by cases h), fun ⟨outs, houts, _⟩ ↦ ?_⟩
    have := hrun.symm.trans ((hloop _).2 ⟨outs, houts, rfl⟩)
    cases this
  next all hrun =>
    have hall : ∀ outs : ℕ → List E, (∀ plan ∈ batcher.numberedPlan chunkTexts,
        batcher.embedDocuments plan.2 ((plan.1.slice (batcher.orderedTexts chunkTexts)).map
          (·.text)) = .ok (outs plan.2)) → all = scatter (writes (batcher.orderedTexts chunkTexts)
          outs (batcher.numberedPlan chunkTexts)) (List.replicate chunkTexts.length none) :=
      fun outs houts ↦ Except.ok.inj (hrun.symm.trans ((hloop _).2 ⟨outs, houts, rfl⟩))
    obtain ⟨outs, houts, -⟩ := (hloop _).1 hrun
    split
    next es hes =>
      have hes := mapM_id_eq_some_iff.1 hes
      constructor
      · intro h
        obtain rfl := Except.ok.inj h
        exact ⟨outs, houts, hes.symm.trans (hall outs houts)⟩
      · rintro ⟨outs', houts', heq⟩
        rw [← hall outs' houts', hes] at heq
        rw [List.map_injective_iff.2 (fun _ _ h ↦ Option.some.inj h) heq]
    next hnone =>
      refine ⟨fun h ↦ (by cases h), fun ⟨outs', houts', heq⟩ ↦ ?_⟩
      rw [← hall outs' houts'] at heq
      rw [mapM_id_eq_some_iff.2 heq.symm] at hnone
      cases hnone

/-- The positions written are all of them when every batch came back with enough vectors. -/
theorem map_fst_writes {outs : ℕ → List E} (hle : ∀ plan ∈ batcher.numberedPlan chunkTexts,
    (plan.1.slice (batcher.orderedTexts chunkTexts)).length ≤ (outs plan.2).length) :
    (writes (batcher.orderedTexts chunkTexts) outs (batcher.numberedPlan chunkTexts)).map Prod.fst =
      (batcher.orderedTexts chunkTexts).map (·.originalIdx) := by
  rw [writes, List.map_flatMap, ← batcher.flatMap_numberedPlan chunkTexts (·.originalIdx)]
  refine List.flatMap_congr fun plan hplan ↦ List.map_fst_zip ?_
  rw [List.length_map]
  exact hle plan hplan

/-- **Too few vectors for a batch and the run fails**: a position stays unwritten. -/
theorem length_le_of_generate_eq_ok {outs : ℕ → List E} {embeddings : List E}
    (h : embeddings.map some =
      scatter (writes (batcher.orderedTexts chunkTexts) outs (batcher.numberedPlan chunkTexts))
        (List.replicate chunkTexts.length none)) : ∀ plan ∈ batcher.numberedPlan chunkTexts,
      (plan.1.slice (batcher.orderedTexts chunkTexts)).length ≤ (outs plan.2).length := by
  have hcover : List.range chunkTexts.length ⊆ (writes (batcher.orderedTexts chunkTexts) outs
      (batcher.numberedPlan chunkTexts)).map Prod.fst := by
    intro idx hidx
    by_contra hmem
    have hlt := List.mem_range.1 hidx
    have hnone : (embeddings.map some)[idx]? = some none := by
      rw [h, getElem?_scatter_of_notMem _ hmem, List.getElem?_replicate_of_lt hlt]
    simp at hnone
  have hlen := (List.nodup_range.subperm hcover).length_le
  have hidxs := batcher.flatMap_numberedPlan chunkTexts (·.originalIdx)
  have hle := forall_length_le_of_length_zip (l := batcher.numberedPlan chunkTexts)
    (f := fun plan ↦ (plan.1.slice (batcher.orderedTexts chunkTexts)).map (·.originalIdx))
    (g := fun plan ↦ outs plan.2) (by
      rw [hidxs, List.length_map, length_orderedTexts]
      rwa [List.length_range, List.length_map] at hlen)
  intro plan hplan
  simpa only [List.length_map] using hle plan hplan

/-- A local run ends well exactly when every batch is answered, with enough vectors. -/
theorem exists_generate_eq_ok_iff (hlocal : batcher.openRouter = false) :
    (∃ embeddings, batcher.generateEmbeddingsBatched chunkTexts = .ok embeddings) ↔
      ∀ b ∈ batcher.batches chunkTexts, ∃ out,
        batcher.embedDocuments b.2 b.1 = .ok out ∧ b.1.length ≤ out.length := by
  rw [batches, hlocal, if_neg Bool.false_ne_true, List.forall_mem_map]
  constructor
  · rintro ⟨embeddings, h⟩ plan hplan
    obtain ⟨outs, houts, hwritten⟩ := (batcher.generate_eq_ok_iff chunkTexts hlocal).1 h
    refine ⟨outs plan.2, houts plan hplan, ?_⟩
    rw [List.length_map]
    exact batcher.length_le_of_generate_eq_ok chunkTexts hwritten plan hplan
  · intro h
    -- The answers by number: a number is that of one batch only.
    have hnumbered : ∀ k, ∃ out, ∀ plan ∈ batcher.numberedPlan chunkTexts, plan.2 = k →
        batcher.embedDocuments plan.2
          ((plan.1.slice (batcher.orderedTexts chunkTexts)).map (·.text)) = .ok out ∧
        (plan.1.slice (batcher.orderedTexts chunkTexts)).length ≤ out.length := by
      intro k
      by_cases hk : ∃ plan ∈ batcher.numberedPlan chunkTexts, plan.2 = k
      · obtain ⟨plan, hplan, rfl⟩ := hk
        obtain ⟨out, hout, hle⟩ := h plan hplan
        refine ⟨out, fun plan' hplan' heq ↦ ?_⟩
        obtain rfl := List.inj_on_of_nodup_map (batcher.nodup_numberedPlan chunkTexts) hplan'
          hplan heq
        rw [List.length_map] at hle
        exact ⟨hout, hle⟩
      · exact ⟨[], fun plan hplan heq ↦ absurd ⟨plan, hplan, heq⟩ hk⟩
    choose outs houts using hnumbered
    have hfst := batcher.map_fst_writes chunkTexts
      (fun plan hplan ↦ (houts plan.2 plan hplan rfl).2)
    have hperm := batcher.originalIdx_perm chunkTexts
    rw [← hfst] at hperm
    have hsome : ∀ a ∈ scatter (writes (batcher.orderedTexts chunkTexts) outs
        (batcher.numberedPlan chunkTexts)) (List.replicate chunkTexts.length none), a.isSome := by
      intro a ha
      obtain ⟨idx, hidx, rfl⟩ := List.mem_iff_getElem.1 ha
      have hlt : idx < (List.replicate chunkTexts.length (none : Option E)).length := by
        rwa [length_scatter] at hidx
      rw [List.length_replicate] at hlt
      obtain ⟨write, hwrite, rfl⟩ := List.mem_map.1 (hperm.mem_iff.2 (List.mem_range.2 hlt))
      have hget := getElem?_scatter_of_mem (List.replicate chunkTexts.length none)
        (hperm.nodup_iff.2 List.nodup_range) hwrite (by rwa [List.length_replicate])
      rw [List.getElem?_eq_getElem hidx] at hget
      rw [Option.some.inj hget]
      rfl
    obtain ⟨embeddings, hes⟩ := exists_map_some hsome
    exact ⟨embeddings, (batcher.generate_eq_ok_iff chunkTexts hlocal).2
      ⟨outs, fun plan hplan ↦ (houts plan.2 plan hplan rfl).1, hes⟩⟩

/-- **A pointwise model gives every text its own vector.** -/
theorem generate_of_pointwise (f : String → E) (hmodel : ∀ b ∈ batcher.batches chunkTexts,
    batcher.embedDocuments b.2 b.1 = .ok (b.1.map f)) :
    batcher.generateEmbeddingsBatched chunkTexts = .ok (chunkTexts.map f) := by
  rcases hlocal : batcher.openRouter with - | -
  · obtain ⟨embeddings, hok⟩ := (batcher.exists_generate_eq_ok_iff chunkTexts hlocal).2
      fun b hb ↦ ⟨_, hmodel b hb, by rw [List.length_map]⟩
    rw [batches, hlocal, if_neg Bool.false_ne_true, List.forall_mem_map] at hmodel
    obtain ⟨outs, houts, hwritten⟩ := (batcher.generate_eq_ok_iff chunkTexts hlocal).1 hok
    have hwrites : writes (batcher.orderedTexts chunkTexts) outs (batcher.numberedPlan chunkTexts) =
        (batcher.orderedTexts chunkTexts).map fun input ↦ (input.originalIdx, f input.text) := by
      rw [← batcher.flatMap_numberedPlan chunkTexts, writes]
      refine List.flatMap_congr fun plan hplan ↦ ?_
      rw [← Except.ok.inj ((hmodel plan hplan).symm.trans (houts plan hplan)), List.map_map,
        List.zip_map']
      rfl
    rw [hok]
    congr 1
    refine List.map_injective_iff.2 (fun _ _ h ↦ Option.some.inj h) ?_
    rw [hwritten, hwrites]
    refine List.ext_getElem? fun idx ↦ ?_
    rcases Nat.lt_or_ge idx chunkTexts.length with hlt | hge
    · obtain ⟨input, hinput, heq⟩ := List.mem_map.1
        ((batcher.orderedTexts_perm chunkTexts).mem_iff.2
          (List.mk_mem_zipIdx_iff_getElem?.2 (List.getElem?_eq_getElem hlt)))
      obtain ⟨htext, rfl⟩ := Prod.mk.inj heq
      rw [@getElem?_scatter_of_mem _ _ _ _ (chunkTexts[input.originalIdx] |> f)]
      · simp [hlt]
      · rw [List.map_map]
        exact (batcher.originalIdx_perm chunkTexts).nodup_iff.2 List.nodup_range
      · exact List.mem_map.2 ⟨input, hinput, by rw [← htext]⟩
      · rwa [List.length_replicate]
    · rw [List.getElem?_eq_none (by simpa using hge), List.getElem?_eq_none (by simpa using hge)]
  · rw [batches, hlocal, if_pos rfl] at hmodel
    have hanswer := hmodel _ (List.mem_singleton_self _)
    rw [generateEmbeddingsBatched, hlocal, if_pos rfl, generateOpenrouterEmbeddings, hanswer]
    exact if_neg (by simp)

/-- What batched embedding owes its caller: with a model that embeds each text by itself, the i-th
vector is the i-th text's; a batch that comes back with another number of vectors than it has texts
is an error. -/
def KeepsOrder : Prop :=
  (∀ f : String → E, (∀ b ∈ batcher.batches chunkTexts,
      batcher.embedDocuments b.2 b.1 = .ok (b.1.map f)) →
    batcher.generateEmbeddingsBatched chunkTexts = .ok (chunkTexts.map f)) ∧
  ((∃ b ∈ batcher.batches chunkTexts, ∃ out,
      batcher.embedDocuments b.2 b.1 = .ok out ∧ out.length ≠ b.1.length) →
    ∃ e, batcher.generateEmbeddingsBatched chunkTexts = .error e)

/-- A local model answers every batch with enough vectors, and one of them with more. -/
def Surplus : Prop :=
  batcher.openRouter = false ∧
  (∀ b ∈ batcher.batches chunkTexts, ∃ out,
    batcher.embedDocuments b.2 b.1 = .ok out ∧ b.1.length ≤ out.length) ∧
  ∃ b ∈ batcher.batches chunkTexts, ∃ out,
    batcher.embedDocuments b.2 b.1 = .ok out ∧ b.1.length < out.length

/-- **Batched embedding fails its caller on a surplus, and only there.** -/
theorem keepsOrder_iff : batcher.KeepsOrder chunkTexts ↔ ¬ batcher.Surplus chunkTexts := by
  constructor
  · rintro ⟨-, hcount⟩ ⟨hlocal, henough, b, hb, out, hout, hlt⟩
    obtain ⟨embeddings, hok⟩ := (batcher.exists_generate_eq_ok_iff chunkTexts hlocal).2 henough
    obtain ⟨e, herror⟩ := hcount ⟨b, hb, out, hout, hlt.ne'⟩
    rw [hok] at herror
    cases herror
  · intro hsurplus
    refine ⟨batcher.generate_of_pointwise chunkTexts, fun ⟨b, hb, out, hout, hne⟩ ↦ ?_⟩
    rcases hrun : batcher.generateEmbeddingsBatched chunkTexts with e | embeddings
    · exact ⟨e, rfl⟩
    · exfalso
      rcases hlocal : batcher.openRouter with - | -
      · have henough := (batcher.exists_generate_eq_ok_iff chunkTexts hlocal).1 ⟨embeddings, hrun⟩
        obtain ⟨out', hout', hle⟩ := henough b hb
        obtain rfl := Except.ok.inj (hout.symm.trans hout')
        exact hsurplus ⟨hlocal, henough, b, hb, out, hout, lt_of_le_of_ne hle hne.symm⟩
      · -- The remote path counts what it gets back.
        rw [batches, hlocal, if_pos rfl, List.mem_singleton] at hb
        subst hb
        rw [generateEmbeddingsBatched, hlocal,
          if_pos rfl, generateOpenrouterEmbeddings, hout] at hrun
        dsimp only at hrun
        rw [if_pos hne] at hrun
        cases hrun

/-- A local model that answers one text with two vectors: the second one is dropped unseen. -/
theorem not_keepsOrder_surplus : ¬ KeepsOrder
    { embedDocuments := fun _ _ ↦ .ok [0, 1], openRouter := false,
      batchingPolicy := .fixedByModel 1, countTokenLengths := fun _ ↦ none }
    ["fn a() {}"] := by
  rintro ⟨-, hcount⟩
  obtain ⟨e, he⟩ := hcount ⟨(["fn a() {}"], 0), by decide, [0, 1], rfl, by decide⟩
  cases he

end EmbeddingBatcher

end RustCodeMcp
