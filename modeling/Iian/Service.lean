import Iian.BatchWrites
import Iian.Engine
import Iian.Verification

/- One request seen alone. `Lives` and `Ended` list everything the engine may do to a
request, whatever else it serves; that it does nothing else is shown over whole runs in
`EngineInvariant`. -/
namespace Iian

variable {M : Model}

/-- The hidden states of `count` positions of a token list. -/
def Model.hiddenRows (M : Model) (tokens : List Token) (start count : Nat) : List M.Embedding :=
  (List.range' start count).map (fun pos => M.prefixHidden (tokens.take (pos + 1)))

/-- What a run means for a single request: the submitted requests, whether the rows it is
given are those of the network, and from where on an embedding request may be pooled. -/
structure Service (M : Model) where
  cfg : EngineConfig
  fresh : Request M → Prop
  exact : Prop
  steady : Request M → Nat → Prop

namespace Service

inductive Lives (service : Service M) : Request M → Prop
  | submit {r : Request M} (fresh : service.fresh r) : Lives service r
  | place {r next : Request M} (lives : Lives service r) (same : next.content = r.content) :
      Lives service next
  | sample {r next : Request M} {nSpec : Nat} {rows : List (List M.Logit)}
      (lives : Lives service r) (generation : r.isEmbedding = false)
      (drafts : nSpec ≤ r.specTokens.length) (computed : r.numComputedTokens = r.nTokens + nSpec)
      (exact : service.exact →
        rows = Request.draftRows M.prefixLogits r.tokens (r.specTokens.take nSpec))
      (verified : r.verify service.cfg.maxModelLen rows nSpec = (next, .next)) :
      Lives service (Engine.lookupDrafts service.cfg next).deliver
  | draft {r : Request M} (lives : Lives service r) (generation : r.isEmbedding = false)
      (free : r.grammar = none) (tokens : List Token) :
      Lives service { r with specTokens := tokens }
  | pool {r : Request M} {start : Nat} {rows : List M.Embedding} (lives : Lives service r)
      (embedding : r.isEmbedding = true) (steady : service.steady r start)
      (some : 0 < rows.length) (inside : start + rows.length ≤ r.nTokens)
      (exact : service.exact → rows = M.hiddenRows r.tokens start rows.length) :
      Lives service (r.poolRows rows)

/-- A request that has left the engine. -/
inductive Ended (service : Service M) : Request M → Prop
  | cut {r last : Request M} {status : RequestStatus} {why : FinishReason} {error : String}
      (lives : Lives service r) (kind : why = .abort ∨ why = .error)
      (same : last.content = (r.close status why error).content) : Ended service last
  | stop {r next last : Request M} {nSpec : Nat} {rows : List (List M.Logit)}
      {why : FinishReason} (lives : Lives service r) (generation : r.isEmbedding = false)
      (drafts : nSpec ≤ r.specTokens.length) (computed : r.numComputedTokens = r.nTokens + nSpec)
      (exact : service.exact →
        rows = Request.draftRows M.prefixLogits r.tokens (r.specTokens.take nSpec))
      (verified : r.verify service.cfg.maxModelLen rows nSpec = (next, .stop why))
      (same : last.content = (next.close (Engine.statusOf why) why "").content) :
      Ended service last
  | embedded {r last : Request M} {start : Nat} {rows : List M.Embedding}
      (lives : Lives service r) (embedding : r.isEmbedding = true)
      (steady : service.steady r start) (some : 0 < rows.length)
      (whole : start + rows.length = r.nTokens)
      (exact : service.exact → rows = M.hiddenRows r.tokens start rows.length)
      (same : last.content = ((r.poolRows rows).embed.close .finishedStopped .stop "").content) :
      Ended service last

end Service

namespace Request

/-- A request as it is submitted: only what the client asked for is set. -/
def New (r : Request M) : Prop :=
  r = { toGen := r.toGen, id := r.id, opts := r.opts, isEmbedding := r.isEmbedding,
        pooling := r.pooling, normalize := r.normalize }

end Request

end Iian
