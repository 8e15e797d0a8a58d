import RustCodeMcp.Effect.Exchanges
import RustCodeMcp.Embeddings.OpenRouter

/-!
# The requests of a batch

Each round asks for one part of the batch, at most `maxRetries + 1` times. The parts whose answers
were taken, in order, make up the batch.

**A round is one part of the batch with all answers to its request.** The request is the same every
time, and only the last answer can be the one that is taken; so the log of a batch is the logs of
its rounds one after another, and a bound on the requests of a round is one on all of them. A part
that is refused as too large has had its round, and its halves follow.

A part has the vectors of its own answer, position by position, and no others: vectors of another
part never come into it, since the indexes in an answer are those within its request.
-/

namespace RustCodeMcp.OpenRouter

open Effect

/-- The vectors that an answer to a request for `count` texts is taken for. -/
def Response.embeddings (dim count : ℕ) : Response → Option (List Embedding)
  | .answered status (.ok body) =>
    if status.isSuccess then (parseEmbeddingsResponse body dim count).toOption else none
  | _ => none

/-- Whether the answer of an exchange was taken. -/
def Exchange.accepted (dim : ℕ) (x : Exchange) : Bool :=
  (x.2.embeddings dim x.1.input.length).isSome

/-- A part of a batch, and what came back for it. -/
structure Round where
  batch : OpenRouterInputBatch
  answers : List Response

namespace OpenRouterEmbedder

variable {embedder : OpenRouterEmbedder} {inputType : String}

/-- The exchanges of a round. -/
def roundLog (embedder : OpenRouterEmbedder) (inputType : String) (round : Round) : List Exchange :=
  round.answers.map fun response ↦ ⟨embedder.requestFor inputType round.batch.texts, response⟩

/-- The exchanges of a request, made up to `n` times, and what is left of the program then: at its
end with vectors one answer has been taken, and at its end without them none has. -/
def Attempted (embedder : OpenRouterEmbedder) (request : EmbeddingRequest) (n : ℕ)
    (log : List Exchange) (rest : Client (List Embedding)) : Prop :=
  ∃ answers : List Response, log = answers.map (fun response ↦ ⟨request, response⟩) ∧
    answers.length ≤ n ∧
    (∀ embeddings, rest = .ret embeddings → ∃ response,
      log.filter (Exchange.accepted embedder.dim) = [⟨request, response⟩] ∧
      response.embeddings embedder.dim request.input.length = some embeddings) ∧
    ∀ e, rest = .fail e → log.filter (Exchange.accepted embedder.dim) = []

theorem Attempted.fail {request : EmbeddingRequest} {n : ℕ} {response : Response}
    {log : List Exchange} {rest : Client (List Embedding)} {e : OpenRouterBatchError}
    (hnone : response.embeddings embedder.dim request.input.length = none)
    (h : Exchanges (.fail e) log rest) :
    embedder.Attempted request (n + 1) (⟨request, response⟩ :: log) rest := by
  obtain ⟨rfl, rfl⟩ := Exchanges.fail_iff.1 h
  exact ⟨[response], rfl, by simp, nofun, fun _ _ ↦ by simp [Exchange.accepted, hnone]⟩

theorem Attempted.again {request : EmbeddingRequest} {n : ℕ} {response : Response}
    {log : List Exchange} {rest : Client (List Embedding)}
    (hnone : response.embeddings embedder.dim request.input.length = none)
    (h : embedder.Attempted request n log rest) :
    embedder.Attempted request (n + 1) (⟨request, response⟩ :: log) rest := by
  obtain ⟨answers, rfl, hlen, htaken, hfailed⟩ := h
  have hfilter : ∀ log : List Exchange, (⟨request, response⟩ :: log).filter
      (Exchange.accepted embedder.dim) = log.filter (Exchange.accepted embedder.dim) :=
    fun log ↦ List.filter_cons_of_neg (by simp [Exchange.accepted, hnone])
  refine ⟨response :: answers, rfl, by simpa using hlen, ?_, ?_⟩
  · rw [hfilter]
    exact htaken
  · rw [hfilter]
    exact hfailed

/-- **A request is made again until its answer is taken**, or no more. -/
theorem requestAttempts_spec {request : EmbeddingRequest} : ∀ {remaining : ℕ}
    {lastRetryable : Option String} {log : List Exchange} {rest : Client (List Embedding)},
    Exchanges (embedder.requestAttempts request remaining lastRetryable) log rest →
    embedder.Attempted request remaining log rest
  | 0, lastRetryable, log, rest, h => by
    obtain ⟨rfl, rfl⟩ := Exchanges.fail_iff.1 h
    exact ⟨[], rfl, Nat.le_refl 0, nofun, fun _ _ ↦ rfl⟩
  | remaining + 1, _, log, rest, h => by
    rw [requestAttempts] at h
    rcases h.bind with ⟨x', hx, rfl, hne⟩ | ⟨l₁, l₂, response, rfl, hx, hf⟩
    · obtain ⟨rfl, rfl⟩ | ⟨response, rfl, rfl⟩ := hx.perform
      · exact ⟨[], rfl, Nat.zero_le _, nofun, nofun⟩
      · exact absurd rfl (hne response)
    obtain ⟨-, hperform⟩ | ⟨_, rfl, ⟨⟩⟩ := hx.perform
    · cases hperform
    -- An error of the connection is retried if it may pass.
    rcases response with ⟨retryable, err⟩ | ⟨status, body⟩
    · dsimp only at hf
      split at hf
      · exact Attempted.again rfl (requestAttempts_spec hf)
      · exact Attempted.fail rfl hf
    dsimp only at hf
    -- A success is taken if it can be read, and is never asked for again.
    by_cases hsuccess : status.isSuccess
    · rw [if_pos hsuccess] at hf
      rcases body with e | body
      · exact Attempted.fail rfl hf
      dsimp only at hf
      rcases hparse : parseEmbeddingsResponse body embedder.dim request.input.length with e | es
      · rw [hparse] at hf
        exact Attempted.fail (by simp [Response.embeddings, hparse, Except.toOption]) hf
      · rw [hparse] at hf
        obtain ⟨rfl, rfl⟩ := Exchanges.ret_iff.1 hf
        have htaken : (Response.answered status (.ok body)).embeddings embedder.dim
            request.input.length = some es := by
          simp [Response.embeddings, hsuccess, hparse, Except.toOption]
        refine ⟨[.answered status (.ok body)], rfl, by simp, ?_, nofun⟩
        rintro _ ⟨⟩
        exact ⟨_, by simp [Exchange.accepted, htaken], htaken⟩
    · rw [if_neg hsuccess] at hf
      have hnone : (Response.answered status body).embeddings embedder.dim
          request.input.length = none := by
        rcases body with e | body <;> simp [Response.embeddings, hsuccess]
      split at hf
      · exact Attempted.fail hnone hf
      · split at hf
        · exact Attempted.again hnone (requestAttempts_spec hf)
        · exact Attempted.fail hnone hf

/-! ### A batch and its halves -/

/-- The inputs of a batch, each with its vector. -/
def indexed (embedder : OpenRouterEmbedder) (a : OpenRouterInputBatch × Response) :
    List (ℕ × Embedding) :=
  (a.1.inputs.map OpenRouterInput.originalIndex).zip
    ((a.2.embeddings embedder.dim a.1.len).getD [])

/-- The exchange of an answer that was taken. -/
def exchange (embedder : OpenRouterEmbedder) (inputType : String)
    (a : OpenRouterInputBatch × Response) : Exchange :=
  ⟨embedder.requestFor inputType a.1.texts, a.2⟩

/-- Answers that were taken for the parts of some batches, in order. -/
structure Taken (embedder : OpenRouterEmbedder) (inputType : String)
    (pending : List OpenRouterInputBatch) (log : List Exchange) (out : List (ℕ × Embedding))
    (answers : List (OpenRouterInputBatch × Response)) : Prop where
  accepted : log.filter (Exchange.accepted embedder.dim) =
    answers.map (embedder.exchange inputType)
  taken : ∀ a ∈ answers, (a.2.embeddings embedder.dim a.1.len).isSome
  inputs : answers.flatMap (·.1.inputs) = pending.flatMap OpenRouterInputBatch.inputs
  out : out = answers.flatMap embedder.indexed

/-- The requests of some batches, and what is left of the program then. -/
def Requested (embedder : OpenRouterEmbedder) (inputType : String)
    (pending : List OpenRouterInputBatch) (orderedEmbeddings : List (ℕ × Embedding))
    (log : List Exchange) (rest : Client (List (ℕ × Embedding))) : Prop :=
  ∃ rounds : List Round, log = rounds.flatMap (embedder.roundLog inputType) ∧
    rounds.length ≤ weight pending ∧ (∀ round ∈ rounds, round.answers.length ≤ maxRetries + 1) ∧
    ∀ out, rest = .ret out → ∃ out' answers, out = orderedEmbeddings ++ out' ∧
      embedder.Taken inputType pending log out' answers

theorem length_input (texts : List String) :
    (embedder.requestFor inputType texts).input.length = texts.length := rfl

theorem Requested.of_stopped {batch : OpenRouterInputBatch} {pending : List OpenRouterInputBatch}
    {orderedEmbeddings : List (ℕ × Embedding)} {answers : List Response}
    {rest : Client (List (ℕ × Embedding))} (hlen : answers.length ≤ maxRetries + 1)
    (hrest : ∀ out, rest ≠ .ret out) :
    embedder.Requested inputType (batch :: pending) orderedEmbeddings
      (embedder.roundLog inputType ⟨batch, answers⟩) rest := by
  refine ⟨[⟨batch, answers⟩], by simp, ?_, by simpa using hlen, fun out hout ↦
    absurd hout (hrest out)⟩
  have := weight_lt_cons batch pending
  simp only [List.length_singleton]
  omega

/-- One more round before the requests that are left. -/
theorem Requested.cons {batch : OpenRouterInputBatch}
    {pending pending' : List OpenRouterInputBatch}
    {orderedEmbeddings orderedEmbeddings' : List (ℕ × Embedding)} {answers : List Response}
    {log : List Exchange} {rest : Client (List (ℕ × Embedding))}
    (h : embedder.Requested inputType pending' orderedEmbeddings' log rest)
    (hlen : answers.length ≤ maxRetries + 1) (hweight : weight pending' < weight (batch :: pending))
    (hout : ∀ out taken, embedder.Taken inputType pending' log out taken →
      ∃ out' taken', orderedEmbeddings' ++ out = orderedEmbeddings ++ out' ∧
        embedder.Taken inputType (batch :: pending)
          (embedder.roundLog inputType ⟨batch, answers⟩ ++ log) out' taken') :
    embedder.Requested inputType (batch :: pending) orderedEmbeddings
      (embedder.roundLog inputType ⟨batch, answers⟩ ++ log) rest := by
  obtain ⟨rounds, rfl, hrounds, hlens, hrest⟩ := h
  refine ⟨⟨batch, answers⟩ :: rounds, rfl, ?_, List.forall_mem_cons.2 ⟨hlen, hlens⟩, ?_⟩
  · rw [List.length_cons]
    omega
  · intro out hret
    obtain ⟨out, taken, rfl, htaken⟩ := hrest out hret
    exact hout out taken htaken

/-- **A batch is asked for in rounds**, and gets the vectors of the parts whose answers are taken.
-/
theorem requestPending_spec : ∀ (pending : List OpenRouterInputBatch)
    (orderedEmbeddings : List (ℕ × Embedding)) {log : List Exchange}
    {rest : Client (List (ℕ × Embedding))},
    Exchanges (embedder.requestPending inputType pending orderedEmbeddings) log rest →
    embedder.Requested inputType pending orderedEmbeddings log rest
| [], orderedEmbeddings, log, rest, h => by
  rw [requestPending] at h
  obtain ⟨rfl, rfl⟩ := Exchanges.ret_iff.1 h
  refine ⟨[], rfl, Nat.le_refl 0, by simp, ?_⟩
  rintro _ ⟨⟩
  exact ⟨[], [], by simp, rfl, by simp, rfl, rfl⟩
| batch :: pending, orderedEmbeddings, log, rest, h => by
  rw [requestPending] at h
  rcases h.bind with ⟨x', hx, rfl, hne⟩ | ⟨l₁, l₂, answer, rfl, hx, hf⟩
  · -- still asking for this batch
    obtain ⟨x, hbatch, rfl⟩ := hx.attempt
    obtain ⟨answers, rfl, hlen, -, -⟩ := requestAttempts_spec hbatch
    rcases x with a | e | ⟨o, k⟩
    · exact absurd rfl (hne _)
    · exact absurd rfl (hne _)
    · exact Requested.of_stopped hlen (by rintro _ ⟨⟩)
  obtain ⟨x, hbatch, hanswer⟩ := hx.attempt
  obtain ⟨answers, rfl, hlen, htaken, hfailed⟩ := requestAttempts_spec hbatch
  rcases x with embeddings | e | ⟨o, k⟩
  case call => cases hanswer
  case ret =>
    cases hanswer
    obtain ⟨response, haccepted, hembeddings⟩ := htaken embeddings rfl
    have hlength : batch.texts.length = batch.len := by simp [OpenRouterInputBatch.texts,
      OpenRouterInputBatch.len]
    rw [length_input, hlength] at hembeddings
    refine (requestPending_spec pending _ hf).cons hlen (weight_lt_cons batch pending) ?_
    rintro out taken ⟨hfilter, hsome, hinputs, rfl⟩
    refine ⟨_, (batch, response) :: taken, List.append_assoc .., ?_, ?_, ?_, ?_⟩
    · rw [List.filter_append, hfilter]
      exact congrArg (· ++ _) haccepted
    · simpa [hembeddings] using hsome
    · rw [List.flatMap_cons, List.flatMap_cons, hinputs]
    · rw [List.flatMap_cons, indexed, hembeddings]
      rfl
  case fail =>
    cases hanswer
    have hnone := hfailed e rfl
    rcases e with msg | msg
    · dsimp only at hf
      by_cases hsplit : 1 < batch.len
      · rw [if_pos hsplit] at hf
        refine (requestPending_spec _ _ hf).cons hlen (weight_halves_lt pending hsplit) ?_
        rintro out taken ⟨hfilter, hsome, hinputs, rfl⟩
        refine ⟨_, taken, rfl, ?_, hsome, ?_, rfl⟩
        · rw [List.filter_append, hfilter]
          exact congrArg (· ++ _) hnone
        · rw [hinputs]
          simp [OpenRouterInputBatch.splitAt, ← List.append_assoc]
      · rw [if_neg hsplit] at hf
        obtain ⟨rfl, rfl⟩ := Exchanges.fail_iff.1 hf
        rw [List.append_nil]
        exact Requested.of_stopped hlen (by rintro _ ⟨⟩)
    · obtain ⟨rfl, rfl⟩ := Exchanges.fail_iff.1 hf
      rw [List.append_nil]
      exact Requested.of_stopped hlen (by rintro _ ⟨⟩)
termination_by pending => weight pending
decreasing_by
  · exact weight_lt_cons batch pending
  · exact weight_halves_lt pending ‹_›

end OpenRouterEmbedder

end RustCodeMcp.OpenRouter
