import Mathlib.Data.List.Forall2
import Mathlib.Logic.Function.Basic
import RustCodeMcp.Machine.Pool
import RustCodeMcp.Machine.Runs
import RustCodeMcp.Semantic.Rename

/-!
# The embedding cache of the graph

A snapshot keeps an embedding for a node with the hash of the text that was embedded and the version
of the embedder. A call looks at its nodes one after another, and takes what is kept where both
agree; the other texts it has embedded, and writes what it got into the snapshot that is then open.
Files may change at any time, calls overlap, and entries go when nodes do.

Whatever the order of all this, a call returns for each node an embedding of its text, as the file
had it during the call, and every file is read once (`answered_of_reachable`).

**The hash is what is believed.** A record is of some text with its hash, and the text of a node is
compared with the record by hashes alone; so the result needs that the hash is injective, and
nothing else about it. The version of the embedder is compared as well, as a string.

Statements are about the past of a call. It looks at its nodes one after another while files go on
changing, and what it read of a file it keeps; so "the file as it was during the call" is one of the
contents the file had since the call began (`HadContents`), and the answer is put together of such
texts. Records of other calls may be older still, but are used only where their hash is that of the
text at hand.
-/

namespace RustCodeMcp.GraphCache

open Machine

/-! ### The tables and the files -/

/-- What is kept for a node: the hash of its text, a version, and the vector. -/
structure EmbeddingRecord (H V : Type) where
  contentHash : H
  vector : V
  embedderVersion : String
  deriving DecidableEq

/-- What a call has for a node: the hash of the text, and the vector. -/
structure ResolvedEmbedding (H V : Type) where
  vector : V
  contentHash : H
  deriving DecidableEq

/-- A text that is to be embedded. -/
structure PendingEmbedding (N H : Type) where
  nid : N
  contentHash : H
  source : List Char

/-- An embedding that is to be kept. -/
structure EmbeddingCacheWrite (N H V : Type) where
  nid : N
  contentHash : H
  vector : V

/-- The file of a node and its place in it, if it has one. -/
structure Node (F : Type) where
  file : Option F
  span : Option (ℕ × ℕ)

/-- What can be read of a file. -/
abbrev Disk (F : Type) := F → Option (List Char)

/-- `embeddings_by_target` -/
abbrev Store (N H V : Type) := N → Option (EmbeddingRecord H V)

/-- What is embedded of a node. -/
def textOf (content : List Char) (span : ℕ × ℕ) : Option (List Char) := do
  let slice ← Rename.get content span.1 span.2
  let source := trimmed (String.ofList slice)
  if source.isEmpty then none else some source

/-- How many texts are embedded at a time. -/
def embedChunk : ℕ := 64

variable {N F S H V : Type}

/-! ### A call -/

/-- The loop over the nodes. -/
structure Preparing (N F H V : Type) where
  /-- The store as it was when the read transaction began. -/
  view : Store N H V
  fileCache : F → Option (List Char)
  seen : List N
  resolved : N → Option (ResolvedEmbedding H V)
  pending : List (PendingEmbedding N H)

/-- Where a call is. -/
inductive Phase (N F H V : Type)
  | preparing (p : Preparing N F H V) (rest : List N)
  /-- The chunks from `todo` on are still to be embedded. -/
  | embedding (p : Preparing N F H V) (todo : List (PendingEmbedding N H)) (newVectors : List V)
  | embedded (embeddings : N → Option (ResolvedEmbedding H V))
      (writes : List (EmbeddingCacheWrite N H V))
  | returned (embeddings : N → Option (ResolvedEmbedding H V))
  | failed

/-- What is asked for. -/
structure Request (N F : Type) where
  nids : List N
  /-- The nodes that the read transaction finds. -/
  nodes : N → Option (Node F)
  embedderVersion : String
  /-- When the call began. -/
  since : ℕ

/-- A call: what it was asked for, and where it is. -/
structure Call (N F H V : Type) extends Request N F where
  phase : Phase N F H V

section Looking

/-- The file and the span of a node that has both. -/
def located (nodes : N → Option (Node F)) (nid : N) : Option (F × ℕ × ℕ) := do
  let node ← nodes nid
  let file ← node.file
  let span ← node.span
  return (file, span)

variable [DecidableEq N] [DecidableEq F] [DecidableEq H] (contentHash : List Char → H)

/-- What the cache has of a text, or else what is to be embedded. -/
def classify (version : String) (p : Preparing N F H V) (nid : N) (source : List Char) :
    Preparing N F H V :=
  let hash := contentHash source
  match p.view nid with
  | some record =>
    if record.contentHash = hash ∧ record.embedderVersion = version then
      { p with resolved := Function.update p.resolved nid (some ⟨record.vector, hash⟩) }
    else { p with pending := p.pending ++ [⟨nid, hash, source⟩] }
  | none => { p with pending := p.pending ++ [⟨nid, hash, source⟩] }

/-- One round of the loop. -/
def look (disk : Disk F) (nodes : N → Option (Node F)) (version : String)
    (p : Preparing N F H V) (nid : N) : Preparing N F H V :=
  if nid ∈ p.seen then p
  else
    let p := { p with seen := nid :: p.seen }
    match located nodes nid with
    | none => p
    | some (file, span) =>
      match (p.fileCache file).or (disk file) with
      | none => p
      | some content =>
        let p := { p with fileCache := Function.update p.fileCache file (some content) }
        match textOf content span with
        | none => p
        | some source => classify contentHash version p nid source

end Looking

/-- What the call has of it for its own answer. -/
def EmbeddingCacheWrite.resolvedEmbedding (write : EmbeddingCacheWrite N H V) :
    ResolvedEmbedding H V :=
  ⟨write.vector, write.contentHash⟩

/-- What is kept of it. -/
def EmbeddingCacheWrite.record (version : String) (write : EmbeddingCacheWrite N H V) :
    EmbeddingRecord H V :=
  ⟨write.contentHash, write.vector, version⟩

/-- What was pending, with its vectors. -/
def written (pending : List (PendingEmbedding N H)) (newVectors : List V) :
    List (EmbeddingCacheWrite N H V) :=
  (pending.zip newVectors).map fun (p, vector) ↦ ⟨p.nid, p.contentHash, vector⟩

/-- The answer with what was embedded. -/
def insertWritten [DecidableEq N] (resolved : N → Option (ResolvedEmbedding H V))
    (writes : List (EmbeddingCacheWrite N H V)) : N → Option (ResolvedEmbedding H V) :=
  writes.foldl (fun resolved write ↦
    Function.update resolved write.nid (some write.resolvedEmbedding)) resolved

/-- The table with what was embedded. -/
def put [DecidableEq N] (store : Store N H V) (version : String)
    (writes : List (EmbeddingCacheWrite N H V)) : Store N H V :=
  writes.foldl (fun store write ↦
    Function.update store write.nid (some (write.record version))) store

/-- What a call does next. -/
inductive Turn (V : Type)
  /-- It looks at its next node, or is through. -/
  | look
  /-- The next chunk is embedded. -/
  | embed (vectors : List V)
  /-- The last chunk has been. -/
  | finish
  /-- A transaction, the generator or the embedder fails. -/
  | fail

/-- What a call does next, if it may. -/
def Call.next [DecidableEq N] [DecidableEq F] [DecidableEq H] (contentHash : List Char → H)
    (disk : Disk F) (call : Call N F H V) : Turn V → Option (Phase N F H V)
  | .look =>
    match call.phase with
    | .preparing p (nid :: rest) => some (.preparing
        (GraphCache.look contentHash disk call.nodes call.embedderVersion p nid) rest)
    | .preparing p [] =>
      some (if p.pending.isEmpty then .embedded p.resolved [] else .embedding p p.pending [])
    | _ => none
  | .embed vectors =>
    match call.phase with
    | .embedding p (next :: todo) newVectors =>
      some (.embedding p ((next :: todo).drop embedChunk) (newVectors ++ vectors))
    | _ => none
  | .finish =>
    match call.phase with
    | .embedding p [] newVectors =>
      some (.embedded (insertWritten p.resolved (written p.pending newVectors))
        (written p.pending newVectors))
    | _ => none
  | .fail =>
    match call.phase with
    | .returned _ => none
    | _ => some .failed

/-! ### The machine -/

/-- The files, the tables of the snapshots, the calls, and the time. -/
structure State (N F S H V : Type) where
  now : ℕ
  /-- The files, at every time until now. -/
  disks : ℕ → Disk F
  stores : S → Store N H V
  calls : List (Call N F H V)

/-- The files change, entries go, a snapshot is copied, or a call begins, goes on or writes. -/
inductive Action (N F S V : Type)
  /-- The files change. -/
  | edit (disk : Disk F)
  /-- Entries of a snapshot go, with their nodes. -/
  | forget (snapshot : S) (kept : N → Bool)
  /-- An incremental build starts from a copy of a snapshot, its cache included. -/
  | copy (source target : S)
  | call (nids : List N) (snapshot : S) (nodes : N → Option (Node F)) (version : String)
  | go (i : ℕ) (turn : Turn V)
  /-- The writes go into the snapshot that is open then, if there are any. -/
  | write (i : ℕ) (snapshot : S)

namespace State

/-- The call goes to another phase. -/
def goto (s : State N F S H V) (i : ℕ) (call : Call N F H V) (phase : Phase N F H V) :
    State N F S H V :=
  { s with calls := s.calls.set i { call with phase } }

variable [DecidableEq N] [DecidableEq F] [DecidableEq S] [DecidableEq H]

/-- One step of a call or of its surroundings. -/
def step (contentHash : List Char → H) (s : State N F S H V) :
    Action N F S V → Option (State N F S H V)
  | .edit disk => some { s with
      now := s.now + 1
      disks := Function.update s.disks (s.now + 1) disk }
  | .forget snapshot kept => some { s with
      stores := Function.update s.stores snapshot fun nid ↦
        if kept nid then s.stores snapshot nid else none }
  | .copy source target => some { s with
      stores := Function.update s.stores target (s.stores source) }
  | .call nids snapshot nodes version => some { s with
      calls := s.calls ++ [⟨⟨nids, nodes, version, s.now⟩,
        .preparing ⟨s.stores snapshot, fun _ ↦ none, [], fun _ ↦ none, []⟩ nids⟩] }
  | .go i turn => do
    let call ← s.calls[i]?
    let phase ← call.next contentHash (s.disks s.now) turn
    some (s.goto i call phase)
  | .write i snapshot => do
    let call ← s.calls[i]?
    match call.phase with
    | .embedded embeddings writes =>
      some { s.goto i call (.returned embeddings) with
        stores := Function.update s.stores snapshot
          (put (s.stores snapshot) call.embedderVersion writes) }
    | _ => none

end State

/-- No file can be read yet, nothing is kept, and nobody has called. -/
def machine [DecidableEq N] [DecidableEq F] [DecidableEq S] [DecidableEq H]
    (contentHash : List Char → H) : Machine (State N F S H V) (Action N F S V) where
  start := ⟨0, fun _ _ ↦ none, fun _ _ ↦ none, []⟩
  step := State.step contentHash

/-! ### What an answer is -/

section Meaning

variable (contentHash : List Char → H) (Embeds : String → List Char → V → Prop)

/-- A record is of some text with its hash. -/
def StoreSound (store : Store N H V) : Prop :=
  ∀ nid record, store nid = some record → ∃ source, contentHash source = record.contentHash ∧
    Embeds record.embedderVersion source record.vector

variable (s : State N F S H V) (request : Request N F)

/-- The files had these contents during the call. -/
def HadContents (contents : F → Option (List Char)) : Prop :=
  ∀ file content, contents file = some content →
    ∃ t, request.since ≤ t ∧ t ≤ s.now ∧ s.disks t file = some content

/-- The text of a node in these contents. -/
def SourceOf (nodes : N → Option (Node F)) (contents : F → Option (List Char)) (nid : N)
    (source : List Char) : Prop :=
  ∃ file span content, located nodes nid = some (file, span) ∧ contents file = some content ∧
    textOf content span = some source

/-- A node has no text, or no file that can be read. -/
def Skipped (contents : F → Option (List Char)) (nid : N) : Prop :=
  ∀ file span, located request.nodes nid = some (file, span) →
    (∃ t, request.since ≤ t ∧ t ≤ s.now ∧ s.disks t file = none) ∨
      ∃ content, contents file = some content ∧ textOf content span = none

/-- An embedding of the text that the node has in these contents. -/
def EmbeddingOf (contents : F → Option (List Char)) (nid : N) (r : ResolvedEmbedding H V) : Prop :=
  ∃ source, SourceOf request.nodes contents nid source ∧ r.contentHash = contentHash source ∧
    Embeds request.embedderVersion source r.vector

/-- **What a call returns**: an embedding for each of its nodes that has a text, of one reading of
every file. -/
structure Answered (embeddings : N → Option (ResolvedEmbedding H V))
    (contents : F → Option (List Char)) : Prop where
  read : HadContents s request contents
  found : ∀ nid r, embeddings nid = some r → nid ∈ request.nids ∧
    EmbeddingOf contentHash Embeds request contents nid r
  missing : ∀ nid ∈ request.nids, embeddings nid = none → Skipped s request contents nid

/-- What the loop has found out so far. -/
structure Gathered (p : Preparing N F H V) : Prop where
  view : StoreSound contentHash Embeds p.view
  read : HadContents s request p.fileCache
  resolved : ∀ nid r, p.resolved nid = some r → nid ∈ p.seen ∧
    EmbeddingOf contentHash Embeds request p.fileCache nid r
  pending : ∀ e ∈ p.pending, e.nid ∈ p.seen ∧ SourceOf request.nodes p.fileCache e.nid e.source ∧
    e.contentHash = contentHash e.source
  missing : ∀ nid ∈ p.seen, p.resolved nid = none → (∀ e ∈ p.pending, e.nid ≠ nid) →
    Skipped s request p.fileCache nid

/-- What is known of a call. -/
def Call.Sound (call : Call N F H V) : Prop :=
  match call.phase with
  | .preparing p rest => Gathered contentHash Embeds s call.toRequest p ∧
      ∀ nid, nid ∈ call.nids ↔ nid ∈ p.seen ∨ nid ∈ rest
  | .embedding p todo newVectors => Gathered contentHash Embeds s call.toRequest p ∧
      (∀ nid, nid ∈ call.nids ↔ nid ∈ p.seen) ∧ ∃ done, p.pending = done ++ todo ∧
        List.Forall₂ (fun e vector ↦ Embeds call.embedderVersion e.source vector) done newVectors
  | .embedded embeddings writes =>
      (∃ contents, Answered contentHash Embeds s call.toRequest embeddings contents) ∧
        ∀ write ∈ writes, ∃ source, contentHash source = write.contentHash ∧
          Embeds call.embedderVersion source write.vector
  | .returned embeddings =>
      ∃ contents, Answered contentHash Embeds s call.toRequest embeddings contents
  | .failed => True

/-- What holds of the tables and of every call. -/
structure State.Inv : Prop where
  stores : ∀ snapshot, StoreSound contentHash Embeds (s.stores snapshot)
  since : ∀ call ∈ s.calls, call.since ≤ s.now
  sound : ∀ call ∈ s.calls, call.Sound contentHash Embeds s

/-- The embedder gives one vector for each text of a chunk, in their order. -/
def Keeps (s : State N F S H V) : Action N F S V → Prop
  | .go i (.embed vectors) => ∀ call p todo newVectors, s.calls[i]? = some call →
      call.phase = .embedding p todo newVectors →
        List.Forall₂ (fun e vector ↦ Embeds call.embedderVersion e.source vector)
          (todo.take embedChunk) vectors
  | _ => True

end Meaning

variable {contentHash : List Char → H} {Embeds : String → List Char → V → Prop}
  {s t : State N F S H V} {request : Request N F} {call : Call N F H V}
  {p : Preparing N F H V} {nid : N} {contents contents' : F → Option (List Char)}

/-! ### What stays -/

/-- Everything that was read is still there. -/
def Extends (contents contents' : F → Option (List Char)) : Prop :=
  ∀ file content, contents file = some content → contents' file = some content

theorem SourceOf.mono {nodes : N → Option (Node F)} {source : List Char}
    (h : SourceOf nodes contents nid source) (hext : Extends contents contents') :
    SourceOf nodes contents' nid source := by
  obtain ⟨file, span, content, hlocated, hcontent, htext⟩ := h
  exact ⟨file, span, content, hlocated, hext file content hcontent, htext⟩

theorem EmbeddingOf.mono {r : ResolvedEmbedding H V}
    (h : EmbeddingOf contentHash Embeds request contents nid r)
    (hext : Extends contents contents') :
    EmbeddingOf contentHash Embeds request contents' nid r := by
  obtain ⟨source, hsource, hr⟩ := h
  exact ⟨source, hsource.mono hext, hr⟩

theorem Skipped.mono (h : Skipped s request contents nid) (hext : Extends contents contents') :
    Skipped s request contents' nid := by
  intro file span hlocated
  rcases h file span hlocated with hunread | ⟨content, hcontent, htext⟩
  · exact .inl hunread
  · exact .inr ⟨content, hext file content hcontent, htext⟩

/-- Time goes on, and the past stays as it was. -/
structure Later (s t : State N F S H V) : Prop where
  now : s.now ≤ t.now
  disks : ∀ u ≤ s.now, t.disks u = s.disks u

theorem HadContents.later (h : HadContents s request contents) (hlater : Later s t) :
    HadContents t request contents := by
  intro file content hcontent
  obtain ⟨u, hsince, hnow, hdisk⟩ := h file content hcontent
  exact ⟨u, hsince, Nat.le_trans hnow hlater.now, by rw [hlater.disks u hnow, hdisk]⟩

theorem Skipped.later (h : Skipped s request contents nid) (hlater : Later s t) :
    Skipped t request contents nid := by
  intro file span hlocated
  rcases h file span hlocated with ⟨u, hsince, hnow, hdisk⟩ | htext
  · exact .inl ⟨u, hsince, Nat.le_trans hnow hlater.now, by rw [hlater.disks u hnow, hdisk]⟩
  · exact .inr htext

theorem Gathered.later (h : Gathered contentHash Embeds s request p) (hlater : Later s t) :
    Gathered contentHash Embeds t request p where
  view := h.view
  read := h.read.later hlater
  resolved := h.resolved
  pending := h.pending
  missing nid hseen hnone hpending := (h.missing nid hseen hnone hpending).later hlater

theorem Answered.later {embeddings : N → Option (ResolvedEmbedding H V)}
    (h : Answered contentHash Embeds s request embeddings contents) (hlater : Later s t) :
    Answered contentHash Embeds t request embeddings contents where
  read := h.read.later hlater
  found := h.found
  missing nid hnid hnone := (h.missing nid hnid hnone).later hlater

theorem Call.Sound.later (h : call.Sound contentHash Embeds s) (hlater : Later s t) :
    call.Sound contentHash Embeds t := by
  obtain ⟨request, phase⟩ := call
  cases phase with
  | preparing p rest => exact ⟨h.1.later hlater, h.2⟩
  | embedding p todo newVectors => exact ⟨h.1.later hlater, h.2⟩
  | embedded embeddings writes =>
    obtain ⟨⟨contents, hanswered⟩, hwrites⟩ := h
    exact ⟨⟨contents, hanswered.later hlater⟩, hwrites⟩
  | returned embeddings =>
    obtain ⟨contents, hanswered⟩ := h
    exact ⟨contents, hanswered.later hlater⟩
  | failed => trivial

/-! ### A look at a node -/

theorem Gathered.skip (h : Gathered contentHash Embeds s request p)
    (hread : HadContents s request contents) (hext : Extends p.fileCache contents)
    (hskipped : Skipped s request contents nid) :
    Gathered contentHash Embeds s request
      { p with seen := nid :: p.seen, fileCache := contents } where
  view := h.view
  read := hread
  resolved other r hr := by
    obtain ⟨hseen, hof⟩ := h.resolved other r hr
    exact ⟨List.mem_cons_of_mem nid hseen, hof.mono hext⟩
  pending e he := by
    obtain ⟨hseen, hsource, hhash⟩ := h.pending e he
    exact ⟨List.mem_cons_of_mem nid hseen, hsource.mono hext, hhash⟩
  missing other hseen hnone hpending := by
    rcases List.mem_cons.1 hseen with rfl | hseen
    · exact hskipped
    · exact (h.missing other hseen hnone hpending).mono hext

theorem Gathered.hit [DecidableEq N] (h : Gathered contentHash Embeds s request p)
    (hread : HadContents s request contents) (hext : Extends p.fileCache contents)
    {r : ResolvedEmbedding H V} (hr : EmbeddingOf contentHash Embeds request contents nid r) :
    Gathered contentHash Embeds s request { p with
      seen := nid :: p.seen
      fileCache := contents
      resolved := Function.update p.resolved nid (some r) } where
  view := h.view
  read := hread
  resolved other r' hr' := by
    have hr' : Function.update p.resolved nid (some r) other = some r' := hr'
    by_cases hother : other = nid
    · subst hother
      rw [Function.update_self] at hr'
      obtain rfl := Option.some.inj hr'
      exact ⟨List.mem_cons_self, hr⟩
    · rw [Function.update_of_ne hother] at hr'
      obtain ⟨hseen, hof⟩ := h.resolved other r' hr'
      exact ⟨List.mem_cons_of_mem nid hseen, hof.mono hext⟩
  pending e he := by
    obtain ⟨hseen, hsource, hhash⟩ := h.pending e he
    exact ⟨List.mem_cons_of_mem nid hseen, hsource.mono hext, hhash⟩
  missing other hseen hnone hpending := by
    have hnone : Function.update p.resolved nid (some r) other = none := hnone
    by_cases hother : other = nid
    · subst hother
      rw [Function.update_self] at hnone
      exact absurd hnone (Option.some_ne_none r)
    · rw [Function.update_of_ne hother] at hnone
      have hseen := (List.mem_cons.1 hseen).resolve_left hother
      exact (h.missing other hseen hnone hpending).mono hext

theorem Gathered.miss (h : Gathered contentHash Embeds s request p)
    (hread : HadContents s request contents) (hext : Extends p.fileCache contents)
    {source : List Char} (hsource : SourceOf request.nodes contents nid source) :
    Gathered contentHash Embeds s request { p with
      seen := nid :: p.seen
      fileCache := contents
      pending := p.pending ++ [⟨nid, contentHash source, source⟩] } where
  view := h.view
  read := hread
  resolved other r hr := by
    obtain ⟨hseen, hof⟩ := h.resolved other r hr
    exact ⟨List.mem_cons_of_mem nid hseen, hof.mono hext⟩
  pending e he := by
    rcases List.mem_append.1 he with he | he
    · obtain ⟨hseen, hsource, hhash⟩ := h.pending e he
      exact ⟨List.mem_cons_of_mem nid hseen, hsource.mono hext, hhash⟩
    · rw [List.mem_singleton.1 he]
      exact ⟨List.mem_cons_self, hsource, rfl⟩
  missing other hseen hnone hpending := by
    rcases List.mem_cons.1 hseen with rfl | hseen
    · exact absurd rfl (hpending ⟨other, contentHash source, source⟩ (by simp))
    · have hold : ∀ e ∈ p.pending, e.nid ≠ other := fun e he ↦
        hpending e (List.mem_append_left _ he)
      exact (h.missing other hseen hnone hold).mono hext

section Look

variable [DecidableEq N] [DecidableEq H]

/-- A record with the hash of the text is taken for one of the text. -/
theorem Gathered.classify (hinj : Function.Injective contentHash)
    (h : Gathered contentHash Embeds s request p) (hread : HadContents s request contents)
    (hext : Extends p.fileCache contents) {source : List Char}
    (hsource : SourceOf request.nodes contents nid source) :
    Gathered contentHash Embeds s request (GraphCache.classify contentHash request.embedderVersion
      { p with seen := nid :: p.seen, fileCache := contents } nid source) := by
  rw [GraphCache.classify]
  dsimp only
  cases hview : p.view nid with
  | none => exact h.miss hread hext hsource
  | some record =>
    dsimp only
    split
    · rename_i hfresh
      obtain ⟨old, hold, hembeds⟩ := h.view nid record hview
      obtain rfl := hinj (hold.trans hfresh.1)
      rw [hfresh.2] at hembeds
      exact h.hit hread hext ⟨old, hsource, rfl, hembeds⟩
    · exact h.miss hread hext hsource

variable [DecidableEq F]

/-- **One round of the loop.** -/
theorem Gathered.look (hinj : Function.Injective contentHash)
    (h : Gathered contentHash Embeds s request p) (hsince : request.since ≤ s.now) (nid : N) :
    Gathered contentHash Embeds s request
      (GraphCache.look contentHash (s.disks s.now) request.nodes request.embedderVersion p
        nid) := by
  rw [GraphCache.look]
  split
  · exact h
  dsimp only
  have hsame : Extends p.fileCache p.fileCache := fun _ _ hcontent ↦ hcontent
  cases hlocated : located request.nodes nid with
  | none =>
    refine h.skip h.read hsame fun file span hother ↦ ?_
    rw [hlocated] at hother
    exact absurd hother.symm (Option.some_ne_none _)
  | some place =>
    obtain ⟨file, span⟩ := place
    dsimp only
    cases hcontent : (p.fileCache file).or (s.disks s.now file) with
    | none =>
      have hdisk : s.disks s.now file = none := (Option.or_eq_none_iff.1 hcontent).2
      refine h.skip h.read hsame fun file' span' hother ↦ .inl ⟨s.now, hsince, Nat.le_refl _, ?_⟩
      rw [hlocated] at hother
      obtain ⟨rfl, -⟩ := Prod.mk.inj (Option.some.inj hother)
      exact hdisk
    | some content =>
      dsimp only
      -- the file is in the cache now, with what it had there, or else has on the disk
      have hext : Extends p.fileCache (Function.update p.fileCache file (some content)) := by
        intro other old hold
        by_cases hother : other = file
        · subst hother
          rw [hold] at hcontent
          rw [Function.update_self, ← hcontent]
          rfl
        · rw [Function.update_of_ne hother, hold]
      have hread : HadContents s request (Function.update p.fileCache file (some content)) := by
        intro other new hnew
        by_cases hother : other = file
        · subst hother
          rw [Function.update_self] at hnew
          obtain rfl := Option.some.inj hnew
          rcases Option.or_eq_some_iff.1 hcontent with hcached | ⟨-, hdisk⟩
          · exact h.read other content hcached
          · exact ⟨s.now, hsince, Nat.le_refl _, hdisk⟩
        · rw [Function.update_of_ne hother] at hnew
          exact h.read other new hnew
      cases htext : textOf content span with
      | none =>
        refine h.skip hread hext fun file' span' hother ↦ .inr ⟨content, ?_, ?_⟩
        · rw [hlocated] at hother
          obtain ⟨rfl, -⟩ := Prod.mk.inj (Option.some.inj hother)
          exact Function.update_self _ _ _
        · rw [hlocated] at hother
          obtain ⟨-, rfl⟩ := Prod.mk.inj (Option.some.inj hother)
          exact htext
      | some source =>
        exact h.classify hinj hread hext
          ⟨file, span, content, hlocated, Function.update_self _ _ _, htext⟩

theorem mem_seen_look {disk : Disk F} {nodes : N → Option (Node F)} {version : String} {other : N} :
    other ∈ (look contentHash disk nodes version p nid).seen ↔ other = nid ∨ other ∈ p.seen := by
  rw [look]
  split
  · rename_i hseen
    exact ⟨.inr, fun h ↦ h.elim (fun heq ↦ heq ▸ hseen) id⟩
  · dsimp only
    split
    · exact List.mem_cons
    · split
      · exact List.mem_cons
      · split
        · exact List.mem_cons
        · rw [classify]
          split
          · split <;> exact List.mem_cons
          · exact List.mem_cons

end Look

/-! ### Writes -/

section Writes

variable [DecidableEq N]

/-- A loop of insertions ends with what was there or with one of what it inserts. -/
theorem foldl_update_some {A B : Type} (key : A → N) (value : A → B) {b : B} :
    ∀ {l : List A} {f : N → Option B},
      l.foldl (fun f a ↦ Function.update f (key a) (some (value a))) f nid = some b →
        f nid = some b ∨ ∃ a ∈ l, key a = nid ∧ value a = b
  | [], _, h => .inl h
  | a :: l, f, h => by
    rw [List.foldl_cons] at h
    rcases foldl_update_some key value h with hold | ⟨c, hc, hkey, hvalue⟩
    · by_cases hnid : nid = key a
      · subst hnid
        rw [Function.update_self] at hold
        exact .inr ⟨a, List.mem_cons_self, rfl, Option.some.inj hold⟩
      · rw [Function.update_of_ne hnid] at hold
        exact .inl hold
    · exact .inr ⟨c, List.mem_cons_of_mem a hc, hkey, hvalue⟩

theorem foldl_update_none {A B : Type} (key : A → N) (value : A → B) :
    ∀ {l : List A} {f : N → Option B},
      l.foldl (fun f a ↦ Function.update f (key a) (some (value a))) f nid = none →
        f nid = none ∧ ∀ a ∈ l, key a ≠ nid
  | [], _, h => ⟨h, fun _ ha ↦ absurd ha List.not_mem_nil⟩
  | a :: l, f, h => by
    rw [List.foldl_cons] at h
    obtain ⟨hnone, hkeys⟩ := foldl_update_none key value h
    by_cases hnid : nid = key a
    · subst hnid
      rw [Function.update_self] at hnone
      exact absurd hnone (Option.some_ne_none _)
    · rw [Function.update_of_ne hnid] at hnone
      exact ⟨hnone, List.forall_mem_cons.2 ⟨fun heq ↦ hnid heq.symm, hkeys⟩⟩

end Writes

theorem written_cons (e : PendingEmbedding N H) (pending : List (PendingEmbedding N H)) (vector : V)
    (newVectors : List V) : written (e :: pending) (vector :: newVectors) =
      ⟨e.nid, e.contentHash, vector⟩ :: written pending newVectors := rfl

/-- Where every text has its vector, everything that was pending is written, and nothing else. -/
theorem mem_written {version : String} {pending : List (PendingEmbedding N H)}
    {newVectors : List V}
    (h : List.Forall₂ (fun e vector ↦ Embeds version e.source vector) pending newVectors) :
    (∀ e ∈ pending, ∃ write ∈ written pending newVectors, write.nid = e.nid) ∧
      ∀ write ∈ written pending newVectors, ∃ e ∈ pending, write.nid = e.nid ∧
        write.contentHash = e.contentHash ∧ Embeds version e.source write.vector := by
  induction h with
  | nil => exact ⟨fun _ he ↦ absurd he List.not_mem_nil, fun _ hw ↦ absurd hw List.not_mem_nil⟩
  | @cons e vector pending newVectors hembeds _ ih =>
    rw [written_cons]
    constructor
    · intro other hother
      rcases List.mem_cons.1 hother with rfl | hother
      · exact ⟨_, List.mem_cons_self, rfl⟩
      · obtain ⟨write, hwrite, hnid⟩ := ih.1 other hother
        exact ⟨write, List.mem_cons_of_mem _ hwrite, hnid⟩
    · intro write hwrite
      rcases List.mem_cons.1 hwrite with rfl | hwrite
      · exact ⟨e, List.mem_cons_self, rfl, rfl, hembeds⟩
      · obtain ⟨other, hother, hwritten⟩ := ih.2 write hwrite
        exact ⟨other, List.mem_cons_of_mem e hother, hwritten⟩

theorem Gathered.answered (h : Gathered contentHash Embeds s request p)
    (hseen : ∀ nid, nid ∈ request.nids ↔ nid ∈ p.seen) (hpending : p.pending = []) :
    Answered contentHash Embeds s request p.resolved p.fileCache where
  read := h.read
  found nid r hr := by
    obtain ⟨hnid, hof⟩ := h.resolved nid r hr
    exact ⟨(hseen nid).2 hnid, hof⟩
  missing nid hnid hnone := by
    refine h.missing nid ((hseen nid).1 hnid) hnone fun e he ↦ ?_
    rw [hpending] at he
    exact absurd he List.not_mem_nil

/-- Where something is, it is there with the vectors. -/
theorem Gathered.answered_written [DecidableEq N] (h : Gathered contentHash Embeds s request p)
    (hseen : ∀ nid, nid ∈ request.nids ↔ nid ∈ p.seen) {newVectors : List V}
    (hvectors : List.Forall₂ (fun e vector ↦ Embeds request.embedderVersion e.source vector)
      p.pending newVectors) :
    Answered contentHash Embeds s request
      (insertWritten p.resolved (written p.pending newVectors)) p.fileCache where
  read := h.read
  found nid r hr := by
    obtain ⟨-, hwritten⟩ := mem_written hvectors
    rcases foldl_update_some EmbeddingCacheWrite.nid EmbeddingCacheWrite.resolvedEmbedding hr with
      hold | ⟨write, hwrite, rfl, rfl⟩
    · obtain ⟨hnid, hof⟩ := h.resolved nid r hold
      exact ⟨(hseen nid).2 hnid, hof⟩
    · obtain ⟨e, he, hnid, hhash, hembeds⟩ := hwritten write hwrite
      obtain ⟨heseen, hsource, hehash⟩ := h.pending e he
      rw [← hnid] at heseen hsource
      exact ⟨(hseen _).2 heseen, e.source, hsource, hhash.trans hehash, hembeds⟩
  missing nid hnid hnone := by
    obtain ⟨hold, hnone⟩ := foldl_update_none EmbeddingCacheWrite.nid
      EmbeddingCacheWrite.resolvedEmbedding hnone
    refine h.missing nid ((hseen nid).1 hnid) hold fun e he heq ↦ ?_
    obtain ⟨write, hwrite, hwritten⟩ := (mem_written hvectors).1 e he
    exact hnone write hwrite (hwritten.trans heq)

/-- Writing embeddings of texts with their hashes keeps a table sound. -/
theorem StoreSound.put [DecidableEq N] {store : Store N H V}
    (h : StoreSound contentHash Embeds store) {version : String}
    {writes : List (EmbeddingCacheWrite N H V)}
    (hwrites : ∀ write ∈ writes, ∃ source, contentHash source = write.contentHash ∧
      Embeds version source write.vector) :
    StoreSound contentHash Embeds (GraphCache.put store version writes) := by
  intro nid record hrecord
  rcases foldl_update_some EmbeddingCacheWrite.nid (EmbeddingCacheWrite.record version) hrecord with
    hold | ⟨write, hwrite, -, rfl⟩
  · exact h nid record hold
  · exact hwrites write hwrite

/-! ### Steps -/

theorem State.Inv.goto {i : ℕ} (h : s.Inv contentHash Embeds) {phase : Phase N F H V}
    (hcall : call ∈ s.calls) (hphase : Call.Sound contentHash Embeds s { call with phase }) :
    State.Inv contentHash Embeds (s.goto i call phase) where
  stores := h.stores
  since other hother := by
    rcases List.mem_or_eq_of_mem_set hother with hother | rfl
    · exact h.since other hother
    · exact h.since call hcall
  sound other hother := by
    have hlater : Later s (s.goto i call phase) := ⟨Nat.le_refl _, fun _ _ ↦ rfl⟩
    rcases List.mem_or_eq_of_mem_set hother with hother | rfl
    · exact (h.sound other hother).later hlater
    · exact hphase.later hlater

theorem State.Inv.store [DecidableEq S] (h : s.Inv contentHash Embeds) (snapshot : S)
    {store : Store N H V} (hstore : StoreSound contentHash Embeds store) :
    State.Inv contentHash Embeds
      { s with stores := Function.update s.stores snapshot store } where
  stores other := by
    show StoreSound contentHash Embeds (Function.update s.stores snapshot store other)
    by_cases hother : other = snapshot
    · subst hother
      rw [Function.update_self]
      exact hstore
    · rw [Function.update_of_ne hother]
      exact h.stores other
  since := h.since
  sound call hcall := (h.sound call hcall).later ⟨Nat.le_refl _, fun _ _ ↦ rfl⟩

section Steps

variable [DecidableEq N] [DecidableEq F] [DecidableEq H]

/-- What is known of a call, after its next turn. -/
theorem Call.Sound.next (hinj : Function.Injective contentHash)
    (h : call.Sound contentHash Embeds s) (hsince : call.since ≤ s.now) {turn : Turn V}
    {phase : Phase N F H V} (hnext : call.next contentHash (s.disks s.now) turn = some phase)
    (hkeeps : ∀ vectors p todo newVectors, turn = .embed vectors →
      call.phase = .embedding p todo newVectors →
        List.Forall₂ (fun e vector ↦ Embeds call.embedderVersion e.source vector)
          (todo.take embedChunk) vectors) :
    Call.Sound contentHash Embeds s { call with phase } := by
  obtain ⟨request, current⟩ := call
  cases turn with
  | look =>
    cases current with
    | preparing p rest =>
      obtain ⟨hgathered, hnids⟩ := h
      cases rest with
      | cons nid rest =>
        obtain rfl := Option.some.inj hnext
        -- A node that was looked up is seen, and is no longer to do.
        refine ⟨hgathered.look hinj hsince nid, fun other ↦ ?_⟩
        rw [mem_seen_look, hnids other, List.mem_cons]
        tauto
      | nil =>
        obtain rfl := Option.some.inj hnext
        have hseen : ∀ nid, nid ∈ request.nids ↔ nid ∈ p.seen := fun nid ↦
          (hnids nid).trans (or_iff_left List.not_mem_nil)
        -- With nothing to embed the answer is ready; else all that was gathered is pending.
        split
        · rename_i hempty
          exact ⟨⟨p.fileCache, hgathered.answered hseen (List.isEmpty_iff.1 hempty)⟩,
            fun _ hwrite ↦ absurd hwrite List.not_mem_nil⟩
        · exact ⟨hgathered, hseen, [], rfl, .nil⟩
    | _ => exact absurd hnext.symm (Option.some_ne_none phase)
  | embed vectors =>
    cases current with
    | embedding p todo newVectors =>
      cases todo with
      | nil => exact absurd hnext.symm (Option.some_ne_none phase)
      | cons next todo =>
        obtain rfl := Option.some.inj hnext
        obtain ⟨hgathered, hseen, done, hpending, hdone⟩ := h
        -- The vectors of a chunk go, in order, to the first texts that are to do.
        refine ⟨hgathered, hseen, done ++ (next :: todo).take embedChunk, ?_, ?_⟩
        · rw [hpending, List.append_assoc, List.take_append_drop]
        · exact List.rel_append hdone (hkeeps vectors p (next :: todo) newVectors rfl rfl)
    | _ => exact absurd hnext.symm (Option.some_ne_none phase)
  | finish =>
    cases current with
    | embedding p todo newVectors =>
      cases todo with
      | nil =>
        obtain rfl := Option.some.inj hnext
        obtain ⟨hgathered, hseen, done, hpending, hdone⟩ := h
        rw [List.append_nil] at hpending
        rw [← hpending] at hdone
        refine ⟨⟨p.fileCache, hgathered.answered_written hseen hdone⟩, fun write hwrite ↦ ?_⟩
        -- Each record to write is of a text that was pending, under that text's hash.
        obtain ⟨e, he, -, hhash, hembeds⟩ := (mem_written hdone).2 write hwrite
        exact ⟨e.source, (hhash.trans (hgathered.pending e he).2.2).symm, hembeds⟩
      | cons next todo => exact absurd hnext.symm (Option.some_ne_none phase)
    | _ => exact absurd hnext.symm (Option.some_ne_none phase)
  | fail =>
    cases current with
    | returned embeddings => exact absurd hnext.symm (Option.some_ne_none phase)
    | _ =>
      obtain rfl := Option.some.inj hnext
      trivial

variable [DecidableEq S] {a : Action N F S V}

/-- **Every step keeps the invariant.** -/
theorem State.Inv.step (hinj : Function.Injective contentHash) (h : s.Inv contentHash Embeds)
    (hkeeps : Keeps Embeds s a) (hstep : s.step contentHash a = some t) :
    t.Inv contentHash Embeds := by
  cases a with
  | edit disk =>
    obtain rfl := Option.some.inj hstep
    -- An edit makes a new moment; what was read at the earlier ones stays as it was.
    have hlater : Later s { s with
        now := s.now + 1
        disks := Function.update s.disks (s.now + 1) disk } :=
      ⟨Nat.le_succ _, fun u hu ↦ Function.update_of_ne (Nat.ne_of_lt (Nat.lt_succ_of_le hu)) _ _⟩
    exact ⟨h.stores, fun call hcall ↦ Nat.le_succ_of_le (h.since call hcall),
      fun call hcall ↦ (h.sound call hcall).later hlater⟩
  | forget snapshot kept =>
    obtain rfl := Option.some.inj hstep
    refine h.store snapshot fun nid record hrecord ↦ ?_
    split at hrecord
    · exact h.stores snapshot nid record hrecord
    · exact absurd hrecord.symm (Option.some_ne_none record)
  | copy source target =>
    obtain rfl := Option.some.inj hstep
    exact h.store target (h.stores source)
  | call nids snapshot nodes version =>
    obtain rfl := Option.some.inj hstep
    have hlater : Later s { s with
        calls := s.calls ++ [⟨⟨nids, nodes, version, s.now⟩,
          .preparing ⟨s.stores snapshot, fun _ ↦ none, [], fun _ ↦ none, []⟩ nids⟩] } :=
      ⟨Nat.le_refl _, fun _ _ ↦ rfl⟩
    refine ⟨h.stores, fun call hcall ↦ ?_, fun call hcall ↦ ?_⟩
    · rcases List.mem_append.1 hcall with hcall | hcall
      · exact h.since call hcall
      -- The new call began at the present moment.
      · rw [List.mem_singleton.1 hcall]
    · rcases List.mem_append.1 hcall with hcall | hcall
      · exact (h.sound call hcall).later hlater
      · rw [List.mem_singleton.1 hcall]
        refine ⟨⟨h.stores snapshot, ?_, ?_, ?_, ?_⟩, fun nid ↦ ?_⟩
        · exact fun _ _ hcontent ↦ absurd hcontent.symm (Option.some_ne_none _)
        · exact fun _ _ hr ↦ absurd hr.symm (Option.some_ne_none _)
        · exact fun _ he ↦ absurd he List.not_mem_nil
        · exact fun _ hseen ↦ absurd hseen List.not_mem_nil
        · exact (or_iff_right List.not_mem_nil).symm
  | go i turn =>
    obtain ⟨call, hi, hstep⟩ := Option.bind_eq_some_iff.1 hstep
    obtain ⟨phase, hnext, hstep⟩ := Option.bind_eq_some_iff.1 hstep
    obtain rfl := Option.some.inj hstep
    have hmem := List.mem_of_getElem? hi
    refine h.goto hmem ((h.sound call hmem).next hinj (h.since call hmem) hnext ?_)
    rintro vectors p todo newVectors rfl hphase
    exact hkeeps call p todo newVectors hi hphase
  | write i snapshot =>
    obtain ⟨call, hi, hstep⟩ := Option.bind_eq_some_iff.1 hstep
    have hmem := List.mem_of_getElem? hi
    have hsound := h.sound call hmem
    obtain ⟨request, phase⟩ := call
    cases phase with
    | embedded embeddings writes =>
      obtain rfl := Option.some.inj hstep
      obtain ⟨hanswered, hwrites⟩ := hsound
      -- First the call returns, which writes nothing; then its records go into the store.
      have hreturned : State.Inv contentHash Embeds
          (s.goto i ⟨request, .embedded embeddings writes⟩ (.returned embeddings)) :=
        h.goto hmem hanswered
      exact hreturned.store snapshot ((h.stores snapshot).put hwrites)
    | _ => exact absurd hstep.symm (Option.some_ne_none t)

/-- **The cache over whole runs.** Whatever overlaps, every record is of a text with its hash, and a
call returns for each of its nodes an embedding of the text that it had during the call. -/
theorem answered_of_reachable (hinj : Function.Injective contentHash)
    (h : (machine contentHash).Reachable (Keeps Embeds) s) :
    (∀ snapshot, StoreSound contentHash Embeds (s.stores snapshot)) ∧
      ∀ call ∈ s.calls, ∀ embeddings, call.phase = .returned embeddings →
        ∃ contents, Answered contentHash Embeds s call.toRequest embeddings contents := by
  have hinv : s.Inv contentHash Embeds := by
    refine h.invariant ⟨fun _ _ _ hrecord ↦ absurd hrecord.symm (Option.some_ne_none _),
      fun _ hcall ↦ absurd hcall List.not_mem_nil, fun _ hcall ↦ absurd hcall List.not_mem_nil⟩ ?_
    exact fun t a u hkeeps hstep hinv ↦ hinv.step hinj hkeeps hstep
  refine ⟨hinv.stores, fun call hcall embeddings hphase ↦ ?_⟩
  have hsound := hinv.sound call hcall
  rw [Call.Sound, hphase] at hsound
  exact hsound

end Steps

/-! ### Two calls that overlap -/

section Overlap

/-- The vector of a text is the text. -/
def Echoes (_ : String) (source vector : List Char) : Prop :=
  vector = source

/-- The vectors are the texts. -/
def echoes (s : State ℕ Unit Bool (List Char) (List Char)) :
    Action ℕ Unit Bool (List Char) → Bool
  | .go i (.embed vectors) =>
    match s.calls[i]? with
    | some ⟨_, .embedding _ todo _⟩ => vectors = (todo.take embedChunk).map PendingEmbedding.source
    | _ => true
  | _ => true

theorem keeps_of_echoes (s : State ℕ Unit Bool (List Char) (List Char))
    (a : Action ℕ Unit Bool (List Char)) (h : echoes s a = true) : Keeps Echoes s a := by
  unfold Keeps
  split
  · rintro ⟨request, phase⟩ p todo newVectors hcall rfl
    rw [echoes, hcall] at h
    rw [of_decide_eq_true h, List.forall₂_map_right_iff, List.forall₂_same]
    exact fun _ _ ↦ rfl
  · trivial

/-- The machine with this embedder. -/
def echoing : Machine (State ℕ Unit Bool (List Char) (List Char))
    (Action ℕ Unit Bool (List Char)) :=
  machine id

/-- One node, at the first two bytes of the only file. -/
def oneNode : ℕ → Option (Node Unit)
  | 0 => some ⟨some (), some (0, 2)⟩
  | _ => none

/-- The file changes between two calls, and the first writes last; then the snapshot is copied. -/
def overlapping : List (Action ℕ Unit Bool (List Char)) :=
  [.edit fun _ ↦ some ['a', 'b'], .call [0] false oneNode "v", .go 0 .look,
    .edit fun _ ↦ some ['c', 'd'], .call [0] false oneNode "v", .go 1 .look, .go 1 .look,
    .go 1 (.embed [['c', 'd']]), .go 1 .finish, .write 1 false, .go 0 .look,
    .go 0 (.embed [['a', 'b']]), .go 0 .finish, .write 0 false, .copy false true]

/-- The record that is left, and copied, is of the older text, and has its hash. -/
theorem answered_overlapping : ∃ s, echoing.Reachable (Keeps Echoes) s ∧
    s.stores true 0 = some ⟨['a', 'b'], ['a', 'b'], "v"⟩ ∧
    (∀ snapshot, StoreSound id Echoes (s.stores snapshot)) ∧
      ∀ call ∈ s.calls, ∀ embeddings, call.phase = .returned embeddings →
        ∃ contents, Answered id Echoes s call.toRequest embeddings contents := by
  have hrun : ((echoing.runIf echoes echoing.start overlapping).any fun s ↦
      decide (s.stores true 0 = some ⟨['a', 'b'], ['a', 'b'], "v"⟩)) = true := by
    decide +kernel
  obtain ⟨s, hs, h⟩ := (Option.any_eq_true ..).1 hrun
  have hreachable : echoing.Reachable (Keeps Echoes) s :=
    ⟨overlapping, runs_of_runIf keeps_of_echoes hs⟩
  exact ⟨s, hreachable, of_decide_eq_true h, answered_of_reachable (fun _ _ h ↦ h) hreachable⟩

end Overlap

end RustCodeMcp.GraphCache
