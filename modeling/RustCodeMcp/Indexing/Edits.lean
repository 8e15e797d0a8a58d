import RustCodeMcp.Indexing.EditedRuns
import RustCodeMcp.Indexing.NextRun
import RustCodeMcp.Indexing.Queue

/-!
# A file that is edited during a run

A run looks at a file three times: it hashes its bytes for the Merkle tree, reads it to cut it into
chunks, and takes its stat for the metadata cache once the chunks are written. An editor may save
the file between any two of its calls. The record then pairs the hash of one text with the stat of a
later one, and a later run that trusts the stat leaves the older text in the stores.

**Whether an edit is lost** is a matter of four versions: those that the run has found at these
three moments, and the final one. What the run leaves is told by the first three (`EditedTo`); the
next run goes by nothing else when it compares it with the fourth.

The example is a save between the reading of a file and its record. The snapshot then has the hash
of the first version and the cache the stat of the second, with the chunks of the first in the
stores; neither comparison shows it, and the second version is not indexed until the file changes
again.
-/

namespace RustCodeMcp

open Effect

variable {D : Type} {env : Env D}

namespace Left

/-- The record has this version of the file, by its stat or by its hash. -/
def Describes (env : Env D) (left : Left D) (file : FileEntry) : Prop :=
  ∃ metadata, left.record = some metadata ∧
    (metadata.stat = file.metadata.stat ∨ metadata.hash = env.sha256 file.bytes)

/-- The next run, if it compares the files one by one, rewrites a file that is `final` by then: the
hash in the snapshot is not the file's, and either the filters have turned against a file the
snapshot knows, or the file yields chunks and is not on record. -/
def Rewritten (env : Env D) (left : Left D) (path : PathBuf) (final : FileEntry) : Prop :=
  some (env.sha256 final.bytes) ≠ left.hash ∧
    (left.hash.isSome = true ∧ env.processes path final = false ∨
      (env.chunksOf path final).isSome = true ∧ ¬ left.Describes env final)

end Left

section Edits

variable [DecidableEq D] {w w₁ v₀ v w₂ : World D} {exclusion exclusion' : ReaderExclusion}
  {r : Except String IndexStats} {path : PathBuf} {stats' : IndexStats} {looks : List Look}
  {final : FileEntry}

namespace World

end World

end Edits

end RustCodeMcp
