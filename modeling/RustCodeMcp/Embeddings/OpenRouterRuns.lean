import RustCodeMcp.Effect.Except
import RustCodeMcp.Embeddings.Batcher
import RustCodeMcp.Embeddings.OpenRouterBatches

/-!
# Remote embedding over whole runs

Whatever the server answers and whichever batch ends first, a run is finite, and when it ends well
each text has the vector that the one answer taken for it gave for its position in the request.

Three things are put together: that sorting and cutting give back the texts, that a batch gets
vectors for its inputs in rounds, and that writing to positions which are all written, by as many
writes as there are positions, writes each once (`range_perm_of_scatter`). **No batch is trusted to
answer for its own positions only**; the count and the check that no position is empty are what
guarantees it.

A run ends because each step either starts a batch or makes a request, and both are bounded: the
batches by the texts, the requests of a batch by halving (`budget`).
-/

namespace RustCodeMcp.OpenRouter

open Effect

/-! ### What is put in order -/

/-- Positions are collected when all are written. -/
theorem collectPositions_eq_ok {E : Type} {omitted : ℕ → String} {output : List (Option E)}
    {es : List E} (h : collectPositions omitted output = .ok es) : output = es.map some := by
  rw [collectPositions] at h
  generalize 0 = k at h
  induction output generalizing k es with
  | nil =>
    obtain rfl := Except.ok.inj h
    rfl
  | cons maybe output ih =>
    rw [List.zipIdx_cons, List.mapM_cons] at h
    obtain ⟨e, he, h⟩ := ok_of_bind h
    obtain ⟨es', hrest, h⟩ := ok_of_bind h
    obtain rfl := Except.ok.inj h
    rcases maybe with _ | e'
    · cases he
    · obtain rfl := Except.ok.inj he
      rw [List.map_cons, ← ih _ hrest]

/-- Positions that are all written by as many writes are each written once. -/
theorem range_perm_of_scatter {E : Type} {writes : List (ℕ × E)} {es : List E} {n : ℕ}
    (h : scatter writes (List.replicate n none) = es.map some) (hlen : writes.length = n) :
    (List.range n).Perm (writes.map Prod.fst) ∧ es.length = n := by
  have hes : es.length = n := by
    have := congrArg List.length h
    simpa using this.symm
  refine ⟨?_, hes⟩
  have hsub : List.range n ⊆ writes.map Prod.fst := by
    intro p hp
    rw [List.mem_range] at hp
    by_contra hnot
    have hp' := getElem?_scatter_of_notMem (List.replicate n none) hnot
    rw [h, List.getElem?_map, List.getElem?_replicate_of_lt hp,
      List.getElem?_eq_getElem (by omega)] at hp'
    simp at hp'
  refine (List.subperm_of_subset List.nodup_range hsub).perm_of_length_le ?_
  simp [hlen]

/-- What is written to a position ends up there. -/
theorem getElem?_of_scatter {E : Type} {writes : List (ℕ × E)} {es : List E} {n p : ℕ} {e : E}
    (h : scatter writes (List.replicate n none) = es.map some)
    (hnodup : (writes.map Prod.fst).Nodup) (hmem : (p, e) ∈ writes) (hp : p < n) :
    es[p]? = some e := by
  have hget := getElem?_scatter_of_mem (List.replicate n none) hnodup hmem (by simpa using hp)
  rw [h, List.getElem?_map] at hget
  simpa using hget

/-! ### The vectors of an answer -/

/-- The vector that an answer gives for a position of its request. -/
def Response.vectorAt (p : ℕ) : Response → Option Embedding
  | .answered _ (.ok body) =>
    match body.data with
    | .ok data => (data.find? (·.index = p)).bind fun item ↦ item.embedding.intoEmbedding.toOption
    | .error _ => none
  | _ => none

/-- The items of an answer write its positions. -/
theorem foldlM_placeItem {dim n : ℕ} : ∀ {data : List EmbeddingResponseItem}
    {output output' : List (Option Embedding)},
    data.foldlM (placeItem dim n) output = .ok output' →
    ∃ writes : List (ℕ × Embedding),
      data.map (fun item ↦ (item.index, item.embedding.intoEmbedding)) =
        writes.map (fun write ↦ (write.1, .ok write.2)) ∧
      (∀ write ∈ writes, write.2.length = dim) ∧ output' = scatter writes output
  | [], output, output', h => ⟨[], rfl, by simp, (Except.ok.inj h).symm⟩
  | item :: data, output, output', h => by
    rw [List.foldlM_cons] at h
    obtain ⟨placed, hplace, h⟩ := ok_of_bind h
    obtain ⟨writes, hwrites, hdims, rfl⟩ := foldlM_placeItem h
    rw [placeItem] at hplace
    split at hplace
    · cases hplace
    rcases hinto : item.embedding.intoEmbedding with err | v
    · rw [hinto] at hplace
      cases hplace
    rw [hinto] at hplace
    dsimp only at hplace
    split at hplace
    · cases hplace
    · rename_i hdim
      obtain rfl := Except.ok.inj hplace
      refine ⟨(item.index, v) :: writes, by simp [hinto, hwrites], ?_, rfl⟩
      exact List.forall_mem_cons.2 ⟨not_not.1 hdim, hdims⟩

/-- **An answer that is taken gives one vector for each position of its request.** -/
theorem vectorAt_of_embeddings {response : Response} {dim n : ℕ} {es : List Embedding}
    (h : response.embeddings dim n = some es) :
    es.length = n ∧ ∀ p < n, ∃ e, es[p]? = some e ∧ response.vectorAt p = some e ∧
      e.length = dim := by
  rcases response with ⟨retryable, err⟩ | ⟨status, err | body⟩
  · cases h
  · cases h
  rw [Response.embeddings] at h
  split at h
  · rcases hparse : parseEmbeddingsResponse body dim n with err | es'
    · simp [hparse, Except.toOption] at h
    obtain rfl : es' = es := by simpa [hparse, Except.toOption] using h
    rw [parseEmbeddingsResponse] at hparse
    rcases hdata : body.data with err | data
    · rw [hdata] at hparse
      cases hparse
    rw [hdata] at hparse
    dsimp only at hparse
    split at hparse
    · cases hparse
    rename_i hcount
    obtain ⟨output, hfold, hcollect⟩ := ok_of_bind hparse
    obtain ⟨writes, hwrites, hdims, rfl⟩ := foldlM_placeItem hfold
    have hes := collectPositions_eq_ok hcollect
    have hindices : data.map (·.index) = writes.map Prod.fst := by
      have := congrArg (List.map Prod.fst) hwrites
      simpa [Function.comp_def] using this
    have hlen : writes.length = n := by
      have := congrArg List.length hwrites
      simp only [List.length_map] at this
      omega
    obtain ⟨hperm, hlength⟩ := range_perm_of_scatter hes hlen
    have hnodup := hperm.nodup List.nodup_range
    refine ⟨hlength, fun p hp ↦ ?_⟩
    obtain ⟨⟨p, v⟩, hmem, rfl⟩ := List.mem_map.1 (hperm.subset (List.mem_range.2 hp))
    refine ⟨v, getElem?_of_scatter hes hnodup hmem hp, ?_, hdims _ hmem⟩
    -- no other item has the position
    obtain ⟨item, hitem, heq⟩ := List.mem_map.1
      (hwrites.symm ▸ List.mem_map_of_mem hmem : (p, Except.ok v) ∈ data.map _)
    obtain ⟨rfl, hinto⟩ : item.index = p ∧ item.embedding.intoEmbedding = .ok v := by
      simpa using heq
    rcases hfind : data.find? (·.index = item.index) with _ | other
    · exact absurd (by simp) (List.find?_eq_none.1 hfind item hitem)
    · have hother : other.index = item.index := by simpa using List.find?_some hfind
      obtain rfl := List.inj_on_of_nodup_map (hindices ▸ hnodup) (List.mem_of_find?_eq_some hfind)
        hitem hother
      simp [Response.vectorAt, hdata, hfind, hinto, Except.toOption]
  · cases h

/-! ### The order of the texts -/

/-- The order is restored when all positions are written. -/
theorem restore_eq_ok {n : ℕ} {embeddings : List (ℕ × Embedding)} {out : List Embedding}
    (h : restoreOriginalEmbeddingOrder n embeddings = .ok out) :
    scatter embeddings (List.replicate n none) = out.map some := by
  rw [restoreOriginalEmbeddingOrder] at h
  obtain ⟨output, hfold, hcollect⟩ := ok_of_bind h
  rw [← collectPositions_eq_ok hcollect]
  clear h hcollect
  generalize List.replicate n none = start at hfold ⊢
  induction embeddings generalizing start with
  | nil => exact Except.ok.inj hfold
  | cons pair embeddings ih =>
    rw [List.foldlM_cons] at hfold
    obtain ⟨placed, hplace, hfold⟩ := ok_of_bind hfold
    dsimp only at hplace
    split at hplace
    · cases hplace
    · obtain rfl := Except.ok.inj hplace
      exact ih _ hfold

/-- **Sorting only permutes**: the inputs are the texts, each with its position. -/
theorem sortedInputs_perm {texts : List String} {tokenLengths : List ℕ}
    (h : tokenLengths.length = texts.length) :
    ((sortedInputs texts tokenLengths).map fun input ↦ (input.text, input.originalIndex)).Perm
      texts.zipIdx := by
  have hmap : ((texts.zip tokenLengths).zipIdx.map fun x ↦
      (⟨x.2, x.1.1, max x.1.2 1⟩ : OpenRouterInput)).map
      (fun input ↦ (input.text, input.originalIndex)) = texts.zipIdx := by
    have htexts : (texts.zip tokenLengths).map Prod.fst = texts :=
      List.map_fst_zip (Nat.le_of_eq h.symm)
    conv_rhs => rw [← htexts, List.zipIdx_map]
    rw [List.map_map]
    rfl
  rw [← hmap]
  exact (List.mergeSort_perm _ _).map _

theorem planned_inputs (texts : List String) (tokenLengths : List ℕ)
    (config : OpenRouterRuntimeConfig) :
    (planRemoteInputBatches texts tokenLengths config).flatMap OpenRouterInputBatch.inputs =
      sortedInputs texts tokenLengths := by
  rw [planRemoteInputBatches, List.flatMap_map]
  exact (consecutive_planBatches _ _ _ _).flatMap_slice_eq

theorem len_pos_of_planned {texts : List String} {tokenLengths : List ℕ}
    {config : OpenRouterRuntimeConfig} {batch : OpenRouterInputBatch}
    (h : batch ∈ planRemoteInputBatches texts tokenLengths config) : 0 < batch.len := by
  rw [planRemoteInputBatches, List.mem_map] at h
  obtain ⟨plan, hplan, rfl⟩ := h
  obtain ⟨hlt, hle⟩ := (consecutive_planBatches _ _ _ _).bounds plan hplan
  simp only [OpenRouterInputBatch.len, BatchPlan.slice, List.length_take, List.length_drop]
  omega

/-! ### Whole runs -/

/-- What a task has got. -/
def Task.out (task : Task) : List (ℕ × Embedding) :=
  match task.rest with
  | .ret embeddings => embeddings
  | _ => []

/-- The requests that a task can still make. -/
def Task.left (task : Task) : ℕ :=
  (maxRetries + 1) * OpenRouterEmbedder.weight [task.batch] - task.log.length

namespace OpenRouterEmbedder

variable {embedder : OpenRouterEmbedder} {inputType : String} {texts : List String}
  {s : Embedding.State}

/-- What holds after any steps. -/
structure Inv (embedder : OpenRouterEmbedder) (inputType : String) (texts : List String)
    (s : Embedding.State) : Prop where
  batches : ((s.taken ++ s.running).map Task.batch ++ s.waiting).Perm
    (embedder.planRemoteBatches texts)
  exchanges : ∀ task ∈ s.taken ++ s.running,
    Exchanges (embedder.requestBatchWithSplit inputType task.batch) task.log task.rest
  taken : ∀ task ∈ s.taken, task.rest = .ret task.out
  ordered : s.orderedEmbeddings = s.taken.flatMap Task.out
  result : ∀ out, s.result = some (.ok out) → s.running = [] ∧ s.waiting = [] ∧
    restoreOriginalEmbeddingOrder texts.length s.orderedEmbeddings = .ok out

theorem Inv.start : embedder.Inv inputType texts (embedder.start texts) := by
  refine ⟨List.Perm.refl _, by simp [OpenRouterEmbedder.start], by simp [OpenRouterEmbedder.start],
    rfl, ?_⟩
  intro out hout
  rw [OpenRouterEmbedder.start] at hout
  dsimp only at hout
  split at hout
  · rename_i hempty
    obtain rfl := List.isEmpty_iff.1 hempty
    obtain rfl := Except.ok.inj (Option.some.inj hout)
    refine ⟨rfl, ?_, rfl⟩
    simp [OpenRouterEmbedder.start, planRemoteBatches, planRemoteInputBatches, sortedInputs,
      sortOpenrouterInputs, planBatches]
  · cases hout

/-- **Every step keeps the invariant.** -/
theorem Inv.step {s t : Embedding.State} {event : Event} (h : embedder.Inv inputType texts s)
    (hnone : s.result = none) (hstep : embedder.step inputType texts s event = some t) :
    embedder.Inv inputType texts t := by
  rcases event with _ | ⟨i, response⟩ | i | _
  case start =>
    rw [OpenRouterEmbedder.step] at hstep
    rcases hwaiting : s.waiting with _ | ⟨batch, waiting⟩
    · rw [hwaiting] at hstep
      cases hstep
    rw [hwaiting] at hstep
    dsimp only at hstep
    split at hstep
    · obtain rfl := Option.some.inj hstep
      refine ⟨?_, ?_, h.taken, h.ordered, fun out hout ↦ absurd hout (by simp [hnone])⟩
      · have hbatches := h.batches
        rw [hwaiting] at hbatches
        simpa using hbatches
      · intro task htask
        rw [← List.append_assoc, List.mem_append, List.mem_singleton] at htask
        rcases htask with htask | rfl
        · exact h.exchanges task htask
        · exact Exchanges.nil _
    · cases hstep
  case answer =>
    rw [OpenRouterEmbedder.step] at hstep
    split at hstep
    case h_2 => cases hstep
    rename_i batch log request k htask
    obtain rfl := Option.some.inj hstep
    obtain ⟨hi, hget⟩ := List.getElem?_eq_some_iff.1 htask
    refine ⟨?_, ?_, h.taken, h.ordered, fun out hout ↦ absurd hout (by simp [hnone])⟩
    · have hset : (s.running.map Task.batch).set i batch = s.running.map Task.batch := by
        refine List.ext_getElem? fun j ↦ ?_
        rcases eq_or_ne i j with rfl | hne
        · simp [hget, hi]
        · rw [List.getElem?_set_ne hne]
      have hbatches := h.batches
      rw [List.map_append] at hbatches
      rw [List.map_append, List.map_set]
      dsimp only
      rwa [hset]
    · intro task hmem
      rcases List.mem_append.1 hmem with hmem | hmem
      · exact h.exchanges task (List.mem_append_left _ hmem)
      rcases List.mem_or_eq_of_mem_set hmem with hmem | rfl
      · exact h.exchanges task (List.mem_append_right _ hmem)
      · exact (h.exchanges _ (List.mem_append_right _ (List.mem_of_getElem? htask))).snoc response
  case take =>
    rw [OpenRouterEmbedder.step] at hstep
    split at hstep
    case h_4 => cases hstep
    case h_1 =>
      rename_i batch log embeddings htask
      obtain rfl := Option.some.inj hstep
      obtain ⟨hi, hget⟩ := List.getElem?_eq_some_iff.1 htask
      have hperm := List.getElem_cons_eraseIdx_perm hi
      rw [hget] at hperm
      have hall : (s.taken ++ [(⟨batch, log, .ret embeddings⟩ : Task)] ++ s.running.eraseIdx i).Perm
          (s.taken ++ s.running) := by
        rw [List.append_assoc]
        exact hperm.append_left s.taken
      refine ⟨((hall.map _).append_right _).trans h.batches,
        fun task hmem ↦ h.exchanges task (hall.subset hmem), ?_, ?_,
        fun out hout ↦ absurd hout (by simp [hnone])⟩
      · intro task hmem
        rcases List.mem_append.1 hmem with hmem | hmem
        · exact h.taken task hmem
        · obtain rfl := List.mem_singleton.1 hmem
          rfl
      · rw [List.flatMap_append, ← h.ordered]
        simp [Task.out]
    -- an error of a batch is the result
    all_goals
      obtain rfl := Option.some.inj hstep
      exact ⟨h.batches, h.exchanges, h.taken, h.ordered, nofun⟩
  case finish =>
    rw [OpenRouterEmbedder.step] at hstep
    split at hstep
    · rename_i hempty
      obtain rfl := Option.some.inj hstep
      refine ⟨h.batches, h.exchanges, h.taken, h.ordered, fun out hout ↦ ?_⟩
      exact ⟨List.isEmpty_iff.1 hempty.1, List.isEmpty_iff.1 hempty.2, Option.some.inj hout⟩
    · cases hstep

/-- The requests of a task are made in rounds. -/
theorem Inv.requested (h : embedder.Inv inputType texts s) {task : Task}
    (htask : task ∈ s.taken ++ s.running) :
    embedder.Requested inputType [task.batch] [] task.log task.rest :=
  requestPending_spec [task.batch] [] (h.exchanges task htask)

/-- **A task makes finitely many requests.** -/
theorem length_log_le {task : Task} {orderedEmbeddings : List (ℕ × Embedding)}
    (h : embedder.Requested inputType [task.batch] orderedEmbeddings task.log task.rest) :
    task.log.length ≤ (maxRetries + 1) * weight [task.batch] := by
  obtain ⟨rounds, hlog, hrounds, hlens, -⟩ := h
  have hlength : (rounds.flatMap (embedder.roundLog inputType)).length ≤
      (maxRetries + 1) * rounds.length := by
    clear hlog hrounds
    induction rounds with
    | nil => exact Nat.le_refl 0
    | cons round rounds ih =>
      have hround := hlens round List.mem_cons_self
      have hrest := ih fun r hr ↦ hlens r (List.mem_cons_of_mem _ hr)
      rw [List.flatMap_cons, List.length_append, List.length_cons, Nat.mul_add, roundLog,
        List.length_map]
      omega
  rw [hlog]
  exact hlength.trans (Nat.mul_le_mul_left _ hrounds)

/-- The steps that a run can still take. -/
def budget (s : Embedding.State) : ℕ :=
  (if s.result.isNone then 1 else 0) + 2 * s.waiting.length + s.running.length +
    (maxRetries + 1) * weight s.waiting + (s.running.map Task.left).sum

theorem budget_step {s t : Embedding.State} {event : Event} (h : embedder.Inv inputType texts s)
    (hnone : s.result = none) (hstep : embedder.step inputType texts s event = some t) :
    budget t < budget s := by
  have ht := h.step hnone hstep
  rcases event with _ | ⟨i, response⟩ | i | _
  case start =>
    rw [OpenRouterEmbedder.step] at hstep
    rcases hwaiting : s.waiting with _ | ⟨batch, waiting⟩
    · rw [hwaiting] at hstep
      cases hstep
    rw [hwaiting] at hstep
    dsimp only at hstep
    split at hstep
    · obtain rfl := Option.some.inj hstep
      have hweight : weight (batch :: waiting) = weight [batch] + weight waiting := by
        simp [weight]
      simp only [budget, hwaiting, hweight, List.map_append, List.sum_append, List.length_append,
        List.length_cons, List.map_cons, List.map_nil, List.sum_cons, List.sum_nil, Task.left,
        List.length_nil, Nat.mul_add]
      omega
    · cases hstep
  case answer =>
    rw [OpenRouterEmbedder.step] at hstep
    split at hstep
    case h_2 => cases hstep
    rename_i batch log request k htask
    -- A batch goes from the waiting ones to the running, with its whole allowance.
    obtain rfl := Option.some.inj hstep
    obtain ⟨hi, hget⟩ := List.getElem?_eq_some_iff.1 htask
    -- One exchange more in the task's log, so one less is left to it.
    set next : Task := ⟨batch, log ++ [⟨request, response⟩], k (.ok response)⟩ with hnext
    have hmem : next ∈ s.taken ++ s.running.set i next :=
      List.mem_append_right _ (List.mem_of_getElem? (List.getElem?_set_self hi))
    have hle := length_log_le (ht.requested hmem)
    have hold := ((List.getElem_cons_eraseIdx_perm hi).map Task.left).sum_nat
    have hnew := ((List.set_perm_cons_eraseIdx hi next).map Task.left).sum_nat
    have hleft : next.left + 1 = (s.running[i]).left := by
      have hle : (log ++ [(⟨request, response⟩ : Exchange)]).length ≤
        (maxRetries + 1) * weight [batch] := hle
      rw [List.length_append, List.length_singleton] at hle
      rw [hget]
      show (maxRetries + 1) * weight [batch] - (log ++ [(⟨request, response⟩ : Exchange)]).length
        + 1 = (maxRetries + 1) * weight [batch] - log.length
      rw [List.length_append, List.length_singleton]
      omega
    rw [List.map_cons, List.sum_cons] at hold hnew
    simp only [budget, List.length_set]
    omega
  case take =>
    rw [OpenRouterEmbedder.step] at hstep
    split at hstep
    case h_4 => cases hstep
    -- What a finished task had left goes with it; an error, or a surplus answer, sets the result.
    case h_1 =>
      rename_i batch log embeddings htask
      obtain rfl := Option.some.inj hstep
      obtain ⟨hi, hget⟩ := List.getElem?_eq_some_iff.1 htask
      have hsum := ((List.getElem_cons_eraseIdx_perm hi).map Task.left).sum_nat
      rw [List.map_cons, List.sum_cons] at hsum
      simp only [budget, List.length_eraseIdx_of_lt hi]
      omega
    all_goals
      obtain rfl := Option.some.inj hstep
      simp [budget, hnone]
  case finish =>
    rw [OpenRouterEmbedder.step] at hstep
    split at hstep
    · obtain rfl := Option.some.inj hstep
      simp [budget, hnone]
    · cases hstep

/-- A run that has not returned can go on, if the server answers. -/
theorem exists_step (hnone : s.result = none) :
    ∃ event, ((embedder.embedWithSplit inputType texts).step s event).isSome := by
  have hstep : ∀ event, (embedder.embedWithSplit inputType texts).step s event =
      embedder.step inputType texts s event := fun event ↦ by simp [embedWithSplit, hnone]
  simp only [hstep]
  rcases hrunning : s.running with _ | ⟨⟨batch, log, rest⟩, running⟩
  · rcases hwaiting : s.waiting with _ | ⟨batch, waiting⟩
    · exact ⟨.finish, by simp [OpenRouterEmbedder.step, hrunning, hwaiting]⟩
    · exact ⟨.start, by
        simp [OpenRouterEmbedder.step, hrunning, hwaiting, embedder.config.concurrency_pos]⟩
  · rcases rest with embeddings | (msg | msg) | ⟨request, k⟩
    case call =>
      exact ⟨.answer 0 (.failed false ""), by simp [OpenRouterEmbedder.step, hrunning]⟩
    all_goals exact ⟨.take 0, by simp [OpenRouterEmbedder.step, hrunning]⟩

/-- What a run that has returned vectors has got: each text was in one request whose answer was
taken, and has the vector that this answer gave for its position. -/
structure Embedded (embedder : OpenRouterEmbedder) (inputType : String) (texts : List String)
    (s : Embedding.State) (out : List Embedding)
    (answers : List (OpenRouterInputBatch × Response)) : Prop where
  length : out.length = texts.length
  dim : ∀ e ∈ out, e.length = embedder.dim
  accepted : ((s.taken ++ s.running).flatMap Task.log).filter (Exchange.accepted embedder.dim) =
    answers.map (embedder.exchange inputType)
  texts : ((answers.flatMap (·.1.inputs)).map fun input ↦ (input.text, input.originalIndex)).Perm
    texts.zipIdx
  vectors : ∀ a ∈ answers, ∀ p input, a.1.inputs[p]? = some input →
    ∃ e, a.2.vectorAt p = some e ∧ out[input.originalIndex]? = some e

/-- The answers that were taken for the batches of some tasks. -/
theorem taken_of_tasks : ∀ {tasks : List Task},
    (∀ task ∈ tasks, embedder.Requested inputType [task.batch] [] task.log task.rest) →
    (∀ task ∈ tasks, task.rest = .ret task.out) →
    ∃ answers, embedder.Taken inputType (tasks.map Task.batch) (tasks.flatMap Task.log)
      (tasks.flatMap Task.out) answers
  | [], _, _ => ⟨[], rfl, by simp, rfl, rfl⟩
  | task :: tasks, hrequested, hret => by
    rw [List.forall_mem_cons] at hrequested hret
    obtain ⟨answers, hanswers⟩ := taken_of_tasks hrequested.2 hret.2
    obtain ⟨-, -, -, -, hout⟩ := hrequested.1
    obtain ⟨out, taken, hout, htaken⟩ := hout task.out hret.1
    rw [List.nil_append] at hout
    refine ⟨taken ++ answers, ?_, ?_, ?_, ?_⟩
    · rw [List.flatMap_cons, List.filter_append, htaken.accepted, hanswers.accepted,
        List.map_append]
    · intro a ha
      exact (List.mem_append.1 ha).elim (htaken.taken a) (hanswers.taken a)
    · rw [List.flatMap_append, htaken.inputs, hanswers.inputs]
      simp
    · rw [List.flatMap_cons, List.flatMap_append, hout, htaken.out, hanswers.out]

theorem map_fst_indexed {a : OpenRouterInputBatch × Response}
    (h : (a.2.embeddings embedder.dim a.1.len).isSome) :
    (embedder.indexed a).map Prod.fst = a.1.inputs.map OpenRouterInput.originalIndex := by
  obtain ⟨es, hes⟩ := Option.isSome_iff_exists.1 h
  rw [indexed, hes, Option.getD_some]
  refine List.map_fst_zip ?_
  rw [(vectorAt_of_embeddings hes).1, List.length_map]
  rfl

/-- A run that has returned vectors has got them as it should. -/
theorem Inv.embedded (h : embedder.Inv inputType texts s)
    {out : List Embedding} (hout : s.result = some (.ok out)) :
    ∃ answers, embedder.Embedded inputType texts s out answers := by
  obtain ⟨hrunning, hwaiting, hrestore⟩ := h.result out hout
  have hscatter := restore_eq_ok hrestore
  obtain ⟨answers, hanswers⟩ := taken_of_tasks (fun task htask ↦ h.requested
    (List.mem_append_left _ htask)) h.taken
  rw [← h.ordered] at hanswers
  -- The answers' inputs are the planned ones, and these are the texts with their places.
  have htexts : ((answers.flatMap (·.1.inputs)).map fun input ↦
      (input.text, input.originalIndex)).Perm texts.zipIdx := by
    have hplan := h.batches
    rw [hrunning, hwaiting, List.append_nil, List.append_nil] at hplan
    have hinputs := hplan.flatMap_right OpenRouterInputBatch.inputs
    rw [← hanswers.inputs, planRemoteBatches, planned_inputs] at hinputs
    exact (hinputs.map _).trans (sortedInputs_perm (embedder.estimateTokenLengths texts).2)
  have hindices : (s.orderedEmbeddings.map Prod.fst) =
      (answers.flatMap (·.1.inputs)).map OpenRouterInput.originalIndex := by
    rw [hanswers.out, List.map_flatMap, List.map_flatMap]
    exact List.flatMap_congr fun a ha ↦ map_fst_indexed (hanswers.taken a ha)
  -- So every place is filled once, and the scatter finds each vector at its own.
  have hrange : (s.orderedEmbeddings.map Prod.fst).Perm (List.range texts.length) := by
    have hsnd := htexts.map Prod.snd
    rw [List.map_map, List.zipIdx_map_snd, ← List.range_eq_range'] at hsnd
    rw [hindices]
    exact hsnd
  have hlen : s.orderedEmbeddings.length = texts.length := by
    have := hrange.length_eq
    simpa using this
  obtain ⟨-, hlength⟩ := range_perm_of_scatter hscatter hlen
  have hnodup := hrange.symm.nodup List.nodup_range
  have hget : ∀ {i : ℕ} {e : Embedding}, (i, e) ∈ s.orderedEmbeddings → out[i]? = some e :=
    fun hmem ↦ getElem?_of_scatter hscatter hnodup hmem
      (List.mem_range.1 (hrange.subset (List.mem_map_of_mem hmem)))
  refine ⟨answers, hlength, fun e he ↦ ?_, ?_, htexts, fun a ha p input hinput ↦ ?_⟩
  · obtain ⟨i, hi, rfl⟩ := List.mem_iff_getElem.1 he
    obtain ⟨⟨i', e⟩, hmem, rfl⟩ := List.mem_map.1
      (hrange.symm.subset (List.mem_range.2 (hlength ▸ hi)))
    have hsome := hget hmem
    rw [List.getElem?_eq_getElem hi, Option.some.injEq] at hsome
    rw [hsome]
    rw [hanswers.out, List.mem_flatMap] at hmem
    obtain ⟨a, ha, hmem⟩ := hmem
    obtain ⟨es, hes⟩ := Option.isSome_iff_exists.1 (hanswers.taken a ha)
    rw [indexed, hes, Option.getD_some] at hmem
    obtain ⟨p, hp, rfl⟩ := List.mem_iff_getElem.1 (List.of_mem_zip hmem).2
    obtain ⟨hcount, hvectors⟩ := vectorAt_of_embeddings hes
    obtain ⟨e, hep, -, hdim⟩ := hvectors p (hcount ▸ hp)
    rw [List.getElem?_eq_getElem hp, Option.some.injEq] at hep
    rw [hep, hdim]
  · rw [hrunning, List.append_nil, hanswers.accepted]
  · obtain ⟨es, hes⟩ := Option.isSome_iff_exists.1 (hanswers.taken a ha)
    obtain ⟨hp, -⟩ := List.getElem?_eq_some_iff.1 hinput
    obtain ⟨e, hep, hvector, -⟩ := (vectorAt_of_embeddings hes).2 p hp
    refine ⟨e, hvector, hget ?_⟩
    rw [hanswers.out, List.mem_flatMap]
    refine ⟨a, ha, ?_⟩
    rw [indexed, hes, Option.getD_some]
    refine List.mem_of_getElem? (i := p) (List.getElem?_zip_eq_some.2 ⟨?_, hep⟩)
    rw [List.getElem?_map, hinput]
    rfl

/-- **Remote embedding returns each text its own vector or an error.** Whatever is answered and in
whatever order, a run is finite, a planned batch of `n` inputs is asked for in at most `2n - 1`
parts, each at most `maxRetries + 1` times, and what is returned is what one answer for each text
gave. -/
theorem embedWithSplit_spec {events : List Event} {s : Embedding.State}
    (h : (embedder.embedWithSplit inputType texts).Runs Machine.Any (embedder.start texts) events
      s) :
    events.length ≤ 1 + 2 * (embedder.planRemoteBatches texts).length +
      (maxRetries + 1) * weight (embedder.planRemoteBatches texts) ∧
    (s.result = none →
      ∃ event, ((embedder.embedWithSplit inputType texts).step s event).isSome) ∧
    ((s.taken ++ s.running).map Task.batch ++ s.waiting).Perm (embedder.planRemoteBatches texts) ∧
    (∀ task ∈ s.taken ++ s.running, ∃ rounds : List Round,
      task.log = rounds.flatMap (embedder.roundLog inputType) ∧
      rounds.length ≤ 2 * task.batch.len - 1 ∧
      ∀ round ∈ rounds, round.answers.length ≤ maxRetries + 1) ∧
    ∀ out, s.result = some (.ok out) →
      ∃ answers, embedder.Embedded inputType texts s out answers := by
  -- By induction on the run: every step takes at least one from the budget.
  have hrun : embedder.Inv inputType texts s ∧
      events.length + budget s ≤ budget (embedder.start texts) := by
    induction h with
    | nil => exact ⟨Inv.start, by simp⟩
    | snoc _ _ hstep ih =>
      rw [embedWithSplit] at hstep
      dsimp only at hstep
      split at hstep
      · cases hstep
      · rename_i hsome
        have hnone := Option.not_isSome_iff_eq_none.1 hsome
        have hbudget := budget_step ih.1 hnone hstep
        refine ⟨ih.1.step hnone hstep, ?_⟩
        rw [List.length_append, List.length_singleton]
        omega
  obtain ⟨hinv, hbudget⟩ := hrun
  refine ⟨?_, exists_step, hinv.batches, fun task htask ↦ ?_, fun out ↦ hinv.embedded⟩
  · have hstart : budget (embedder.start texts) ≤
        1 + 2 * (embedder.planRemoteBatches texts).length +
          (maxRetries + 1) * weight (embedder.planRemoteBatches texts) := by
      have hone : ∀ b : Bool, (if b then 1 else 0) ≤ 1 := by decide
      have := hone (embedder.start texts).result.isNone
      show (if (embedder.start texts).result.isNone then 1 else 0) +
        2 * (embedder.planRemoteBatches texts).length + 0 +
        (maxRetries + 1) * weight (embedder.planRemoteBatches texts) + 0 ≤ _
      omega
    omega
  · obtain ⟨rounds, hlog, hrounds, hlens, -⟩ := hinv.requested htask
    have hplanned : task.batch ∈ embedder.planRemoteBatches texts :=
      hinv.batches.subset (List.mem_append_left _ (List.mem_map_of_mem htask))
    have hpos := len_pos_of_planned hplanned
    refine ⟨rounds, hlog, ?_, hlens⟩
    simp only [weight, List.map_cons, List.map_nil, List.sum_cons, List.sum_nil] at hrounds
    omega

/-- The two answers to a batch's request that let the batch go on. -/
theorem requestPending_cons (batch : OpenRouterInputBatch) (pending : List OpenRouterInputBatch)
    (orderedEmbeddings : List (ℕ × Embedding)) : ∃ k,
    embedder.requestPending inputType (batch :: pending) orderedEmbeddings =
      .call (embedder.requestFor inputType batch.texts) k ∧
    (∀ response embeddings,
      response.embeddings embedder.dim batch.texts.length = some embeddings →
      k (.ok response) = embedder.requestPending inputType pending (orderedEmbeddings ++
        (batch.inputs.map OpenRouterInput.originalIndex).zip embeddings)) ∧
    ∀ status body, status.isSuccess = false → isPayloadTooLarge status (bodyText body) →
      1 < batch.len → k (.ok (.answered status body)) = embedder.requestPending inputType
        ((batch.splitAt (batch.len / 2)).1 :: (batch.splitAt (batch.len / 2)).2 :: pending)
        orderedEmbeddings := by
  rw [requestPending]
  refine ⟨_, rfl, fun response embeddings hresponse ↦ ?_, fun status body hfailed hlarge hlen ↦ ?_⟩
  · rcases response with ⟨retryable, err⟩ | ⟨status, err | body⟩
    · cases hresponse
    · cases hresponse
    · rw [Response.embeddings] at hresponse
      split at hresponse
      · rename_i hsuccess
        rcases hparse : parseEmbeddingsResponse body embedder.dim batch.texts.length with err | es
        · simp [hparse, Except.toOption] at hresponse
        obtain rfl : es = embeddings := by simpa [hparse, Except.toOption] using hresponse
        have hinput : (embedder.requestFor inputType batch.texts).input = batch.texts := rfl
        simp only [Prog.bind, hsuccess, hinput, hparse, if_true]
        rfl
      · cases hresponse
  · simp [Prog.bind, Prog.attempt, hfailed, hlarge, hlen]

/-! ### A batch that is halved -/

/-- An embedder with batches of two, and vectors of one number. -/
def small : OpenRouterEmbedder where
  model := "m"
  dim := 1
  config := ⟨2, 8, 1, .float, none, by decide, by decide, by decide⟩
  estimateTokenLengths texts := ⟨texts.map (·.utf8ByteSize), by simp⟩

/-- An answer with one vector. -/
def oneVector (v : Float32) : Response :=
  .answered ⟨200, "200 OK"⟩ (.ok ⟨"", .ok [⟨.float [v], 0⟩]⟩)

/-- The answer to a request that is too large. -/
def tooLarge : Response :=
  .answered ⟨413, "413 Payload Too Large"⟩ (.ok ⟨"", .error ""⟩)

theorem small_plan : small.planRemoteBatches ["bb", "a"] = [⟨[⟨1, "a", 1⟩, ⟨0, "bb", 2⟩]⟩] := by
  have hsort : sortedInputs ["bb", "a"] [2, 1] = [⟨1, "a", 1⟩, ⟨0, "bb", 2⟩] := by
    simp [sortedInputs, sortOpenrouterInputs, List.mergeSort, List.MergeSort.Internal.splitInTwo,
      List.splitAt, List.splitAt.go]
  have hlen : (small.estimateTokenLengths ["bb", "a"]).1 = [2, 1] := by decide
  rw [planRemoteBatches, hlen, planRemoteInputBatches, hsort]
  rfl

theorem halved_run : ∃ s, (small.embedWithSplit "d" ["bb", "a"]).Runs Machine.Any
    (small.start ["bb", "a"]) [.start, .answer 0 tooLarge, .answer 0 (oneVector 1),
      .answer 0 (oneVector 2), .take 0, .finish] s ∧ s.result = some (.ok [[2], [1]]) := by
  have htaken : ∀ v, (oneVector v).embeddings small.dim 1 = some [[v]] := fun _ ↦ rfl
  obtain ⟨k₀, h₀, -, hhalves⟩ :=
    @requestPending_cons small "d" ⟨[⟨1, "a", 1⟩, ⟨0, "bb", 2⟩]⟩ [] []
  obtain ⟨k₁, h₁, hfirst, -⟩ :=
    @requestPending_cons small "d" ⟨[⟨1, "a", 1⟩]⟩ [⟨[⟨0, "bb", 2⟩]⟩] []
  obtain ⟨k₂, h₂, hsecond, -⟩ := @requestPending_cons small "d" ⟨[⟨0, "bb", 2⟩]⟩ [] [(1, [1])]
  have h₀' : k₀ (.ok tooLarge) = .call (small.requestFor "d" ["a"]) k₁ :=
    (hhalves _ _ rfl (by decide) (by decide)).trans h₁
  have h₁' : k₁ (.ok (oneVector 1)) = .call (small.requestFor "d" ["bb"]) k₂ :=
    (hfirst _ _ (htaken 1)).trans h₂
  have h₂' : k₂ (.ok (oneVector 2)) = .ret [(1, [1]), (0, [2])] := by
    rw [hsecond _ _ (htaken 2), requestPending]
    rfl
  have hstart : small.start ["bb", "a"] =
      ⟨[⟨[⟨1, "a", 1⟩, ⟨0, "bb", 2⟩]⟩], [], [], [], none⟩ := by
    rw [start, small_plan]
    rfl
  have hrun : ∃ s, (small.embedWithSplit "d" ["bb", "a"]).run (small.start ["bb", "a"])
      [.start, .answer 0 tooLarge, .answer 0 (oneVector 1), .answer 0 (oneVector 2), .take 0,
        .finish] = some s ∧ s.result = some (.ok [[2], [1]]) := by
    rw [hstart]
    simp [Machine.run, Machine.runIf, embedWithSplit, step, requestBatchWithSplit, h₀, h₀', h₁',
      h₂', OpenRouterRuntimeConfig.concurrency_pos]
    rfl
  obtain ⟨s, hs, hresult⟩ := hrun
  exact ⟨s, Machine.runs_of_run hs, hresult⟩

theorem halved_embedded : ∃ s : Embedding.State, s.result = some (.ok [[2], [1]]) ∧
    ∃ answers, small.Embedded "d" ["bb", "a"] s [[2], [1]] answers := by
  obtain ⟨s, hs, hresult⟩ := halved_run
  exact ⟨s, hresult, (embedWithSplit_spec hs).2.2.2.2 _ hresult⟩

end OpenRouterEmbedder

end RustCodeMcp.OpenRouter
