import Metainfo.Ingest.Context
import Metainfo.Markup.Document

/-!
Ingesting one document: every application in it becomes a record.  If the document is not read to
its end, the record of the application still open is dropped, and those completed before stay.
-/

namespace Metainfo

open Metainfo.Markup

structure Ingested where
  result : Except Failure (List RecordId)
  pool : Pool
  /-- The ids whose desktop entries were asked for, with the root switch. -/
  queries : List (String × Bool)

/-- Ingests a document that has been read already. -/
def ingestReading (settings : IngestSettings) (pool : Pool) (reading : Reading) : Ingested :=
  let context := (Context.initial pool).run settings reading.events
  let context := if reading.failure.isSome then context.abort else context
  { result :=
      match reading.failure with
      | none => .ok context.completed
      | some failure => .error failure
    pool := if settings.flags.deferWrites then context.pool else context.pool.internalize
    queries := context.queries }

def ingest (settings : IngestSettings) (pool : Pool) (source : Source) : Ingested :=
  ingestReading settings pool (Markup.read source)

end Metainfo
