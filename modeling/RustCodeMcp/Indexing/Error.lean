import Mathlib.Data.List.Infix
import Mathlib.Data.List.Sublists

/-!
# Indexing errors and what is retried

Errors reach the code that decides about a retry as text. `categorizeError` reads that text: an
outcome that is settled (the file was considered and deliberately not indexed) and a few causes
that no retry cures are permanent; everything else is transient, and a transient error keeps its
path out of the committed snapshot.

What travels is the printed form of the error, prefixed by the kinds it was wrapped in, so that the
test is for a text that occurs somewhere in it. The settled outcomes are tested for first: they are
parser errors, like real ones, and only their texts tell them apart. A message that happens to
contain one of the causes is categorised by it, whatever it is about.
-/

namespace RustCodeMcp

/-- Errors that can occur during indexing operations. -/
inductive IndexingError
  | io (message : String)
  | embedding (message : String)
  | vectorStore (message : String)
  | parser (message : String)
  | cache (message : String)

/-- The printed form of an error. -/
def IndexingError.display : IndexingError → String
  | io message => "I/O error: " ++ message
  | embedding message => "Embedding error: " ++ message
  | vectorStore message => "Vector store error: " ++ message
  | parser message => "Parser error: " ++ message
  | cache message => "Cache error: " ++ message

/-- The metadata cache has the file on record as it is. -/
def OUTCOME_FILE_UNCHANGED : String := "File unchanged"
/-- The file was parsed, and there is nothing in it to index. -/
def OUTCOME_NO_CHUNKS : String := "No chunks generated"
/-- The scanner found secrets in the text. -/
def OUTCOME_CONTAINS_SECRETS : String := "Contains secrets"
/-- A filter holds against the file: its path, or its size. -/
def OUTCOME_SECURITY_FILTERED : String := "File filtered: security check failed"

/-- The outcomes that travel as parser errors and are not failures to retry. -/
def SETTLED_OUTCOMES : List String :=
  [OUTCOME_FILE_UNCHANGED, OUTCOME_NO_CHUNKS, OUTCOME_CONTAINS_SECRETS, OUTCOME_SECURITY_FILTERED]

/-- Category of an indexing error. -/
inductive ErrorCategory
  | permanent
  | transient
  deriving DecidableEq

/-- The characters of a text in lower case. -/
def lowercase (text : String) : List Char :=
  text.toList.map Char.toLower

/-- Whether `pattern` occurs in `text`, as `str::contains` has it. -/
def containsText (text pattern : List Char) : Bool :=
  text.tails.any fun suffix ↦ pattern.isPrefixOf suffix

theorem containsText_append (before pattern : List Char) :
    containsText (before ++ pattern) pattern = true := by
  refine List.any_eq_true.2 ⟨pattern, ?_, ?_⟩
  · exact (List.mem_tails _ _).2 (List.suffix_append _ _)
  · exact List.isPrefixOf_iff_prefix.2 (List.prefix_refl _)

/-- Categorize an error by its message. -/
def categorizeError (error : String) : ErrorCategory :=
  let errorStr := lowercase error
  -- Settled outcomes first: a retry can only reach the same answer.
  if SETTLED_OUTCOMES.any fun outcome ↦ containsText errorStr (lowercase outcome) then .permanent
  else if ["permission denied", "not found", "invalid utf", "is a directory"].any
      fun cause ↦ containsText errorStr cause.toList then .permanent
  else .transient

/-- **A settled outcome is never retried**, whatever the parser error's wording around it. -/
theorem categorizeError_settled {outcome : String} (h : outcome ∈ SETTLED_OUTCOMES) :
    categorizeError (IndexingError.parser outcome).display = .permanent := by
  have hcontains : containsText (lowercase ("Parser error: " ++ outcome)) (lowercase outcome) := by
    rw [lowercase, String.toList_append, List.map_append]
    exact containsText_append _ _
  have hany : (SETTLED_OUTCOMES.any fun settled ↦
      containsText (lowercase ("Parser error: " ++ outcome)) (lowercase settled)) = true :=
    List.any_eq_true.2 ⟨outcome, h, hcontains⟩
  exact if_pos hany

end RustCodeMcp
