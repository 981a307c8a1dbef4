import Iian.EngineRun
import Mathlib.Algebra.BigOperators.Group.List.Basic
import Mathlib.Algebra.Field.Rat
import Mathlib.Algebra.Group.Pi.Basic

/- Embedding requests: what is pooled over the chunks of a request against the pooling of
its whole token list. -/
namespace Iian

open List

variable {M : Model}

namespace Model

/-- The hidden state `h_i` of a token list. -/
def hiddenAt (M : Model) (tokens : List Token) (pos : Nat) : M.Embedding :=
  M.prefixHidden (tokens.take (pos + 1))

/-- The pooled vector of a token list. -/
def pooledOf (M : Model) (pooling : Pooling) (tokens : List Token) : M.Embedding :=
  match pooling with
  | .mean => fun d =>
    ((List.range tokens.length).map (M.hiddenAt tokens)).sum d / (tokens.length : ℚ)
  | .last => M.hiddenAt tokens (tokens.length - 1)
  | .cls => M.hiddenAt tokens 0

/-- `acc` is what `count` positions of a token list pool to. -/
def PooledTo (M : Model) (pooling : Pooling) (tokens : List Token) (count : Nat)
    (acc : M.Embedding) : Prop :=
  match pooling with
  | .mean => acc = ((List.range count).map (M.hiddenAt tokens)).sum
  | .last => True
  | .cls => count ≠ 0 → acc = M.hiddenAt tokens 0

end Model

variable {r : Request M} {start : Nat}

namespace Request

theorem poolRows_mean (mean : r.pooling = .mean) (rows : List M.Embedding) :
    (r.poolRows rows).embdAcc = some (r.embdAcc.getD 0 + rows.sum) := by
  have loop : ∀ (rows : List M.Embedding) (start : Nat) (acc : M.Embedding) (first : Bool),
      (rows.zipIdx start).foldl (fun acc row => poolRow .mean (first && row.2 == 0) acc row.1) acc =
        acc + rows.sum := by
    intro rows
    induction rows with
    | nil => intro _ acc _; exact (add_zero acc).symm
    | cons row rows ih =>
      intro start acc first
      rw [zipIdx_cons, foldl_cons, ih, sum_cons]
      exact add_assoc acc row rows.sum
  unfold poolRows
  dsimp only
  rw [mean, loop]

theorem poolRows_last (last : r.pooling = .last) (rows : List M.Embedding) :
    (r.poolRows rows).embdAcc = some (rows.getLastD (r.embdAcc.getD 0)) := by
  have loop : ∀ (rows : List M.Embedding) (start : Nat) (acc : M.Embedding) (first : Bool),
      (rows.zipIdx start).foldl (fun acc row => poolRow .last (first && row.2 == 0) acc row.1) acc =
        rows.getLastD acc := by
    intro rows
    induction rows with
    | nil => intro _ acc _; rfl
    | cons row rows ih =>
      intro start acc first
      rw [zipIdx_cons, foldl_cons, ih, getLastD_cons, poolRow]
  unfold poolRows
  dsimp only
  rw [last, loop]

/-- Only the first row of the first chunk counts for CLS. -/
theorem poolRows_cls (cls : r.pooling = .cls) (rows : List M.Embedding) :
    (r.poolRows rows).embdAcc =
      some (if r.embdCount = 0 then rows.headD (r.embdAcc.getD 0) else r.embdAcc.getD 0) := by
  have later : ∀ (rows : List M.Embedding) (start : Nat) (acc : M.Embedding) (first : Bool),
      first = false ∨ 0 < start →
      (rows.zipIdx start).foldl (fun acc row => poolRow .cls (first && row.2 == 0) acc row.1) acc =
        acc := by
    intro rows
    induction rows with
    | nil => intro _ acc _ _; rfl
    | cons row rows ih =>
      intro start acc first skip
      have flag : (first && start == 0) = false := by
        rcases skip with rfl | positive
        · rfl
        · simp [Nat.ne_of_gt positive]
      rw [zipIdx_cons, foldl_cons, ih _ _ _ (.inr (Nat.succ_pos _)), flag]
      rfl
  unfold poolRows
  dsimp only
  rw [cls]
  by_cases fresh : r.embdCount = 0
  · rw [if_pos fresh]
    cases rows with
    | nil => rfl
    | cons row rows =>
      rw [zipIdx_cons, foldl_cons, later _ _ _ _ (.inr (Nat.succ_pos _)), fresh]
      rfl
  · rw [if_neg fresh, later _ _ _ _ (.inl (by simpa using fresh))]

/-- Pooling may go on from position `start`: MEAN has pooled exactly the positions before it,
and CLS starts at the first one. -/
def Steady (r : Request M) (start : Nat) : Prop :=
  match r.pooling with
  | .mean => start = r.embdCount
  | .last => True
  | .cls => r.embdCount = 0 → start = 0

instance (r : Request M) (start : Nat) : Decidable (r.Steady start) := by
  unfold Steady
  split <;> infer_instance

/-- What an embedding request has pooled so far. -/
def Pooled (r : Request M) : Prop :=
  M.PooledTo r.pooling r.tokens r.embdCount (r.embdAcc.getD 0)

variable {rows : List M.Embedding}

variable (pooled : r.Pooled) (steady : r.Steady start) (some : 0 < rows.length)
    (exact : rows = M.hiddenRows r.tokens start rows.length)

include pooled steady some exact

/-- A chunk from a steady position keeps what has been pooled. -/
theorem Pooled.poolRows :
    (r.poolRows rows).Pooled := by
  show M.PooledTo r.pooling r.tokens (r.embdCount + rows.length) ((r.poolRows rows).embdAcc.getD 0)
  unfold Pooled at pooled
  unfold Steady at steady
  cases kind : r.pooling with
  | mean =>
    rw [kind] at pooled steady
    dsimp only [Model.PooledTo] at pooled steady ⊢
    rw [poolRows_mean kind, Option.getD_some, pooled, range_eq_range', range_eq_range',
      ← range'_append_1, map_append, sum_append, Nat.zero_add, ← steady]
    conv_lhs => rw [exact]
    rfl
  | last => trivial
  | cls =>
    rw [kind] at pooled steady
    dsimp only [Model.PooledTo] at pooled steady ⊢
    intro _
    rw [poolRows_cls kind, Option.getD_some]
    split
    · rename_i fresh
      rw [steady fresh] at exact
      cases rows with
      | nil => cases some
      | cons row rows =>
        rw [Model.hiddenRows, length_cons, range'_succ, map_cons] at exact
        exact (List.cons.inj exact).1
    · rename_i more
      exact pooled more

/-- The last chunk completes the pooled vector of the request. -/
theorem Pooled.whole (whole : start + rows.length = r.nTokens) :
    (r.poolRows rows).pooled = M.pooledOf r.pooling r.tokens := by
  have next : M.PooledTo r.pooling r.tokens (r.embdCount + rows.length)
      ((r.poolRows rows).embdAcc.getD 0) := pooled.poolRows steady some exact
  unfold Steady at steady
  show (if r.pooling = .mean ∧ r.embdCount + rows.length ≠ 0 then
    fun d => (r.poolRows rows).embdAcc.getD 0 d / ((r.embdCount + rows.length : Nat) : ℚ)
    else (r.poolRows rows).embdAcc.getD 0) = _
  cases kind : r.pooling with
  | mean =>
    rw [kind] at next steady
    dsimp only [Model.PooledTo] at next steady
    rw [if_pos ⟨rfl, by omega⟩, next, ← steady, whole]
    rfl
  | last =>
    have last : rows.getLast? = Option.some (M.hiddenAt r.tokens (r.tokens.length - 1)) := by
      rw [exact, Model.hiddenRows, getLast?_map, getLast?_range', if_neg (by omega)]
      change Option.some (M.hiddenAt r.tokens _) = _
      congr 2
      change start + rows.length = r.tokens.length at whole
      omega
    rw [if_neg (by simp), poolRows_last kind, Option.getD_some, getLastD_eq_getLast?, last]
    rfl
  | cls =>
    rw [kind] at next
    rw [if_neg (by simp)]
    exact next (by omega)

end Request

namespace Service

variable {service : Service M}

section

variable (new : ∀ r, service.fresh r → r.New) (exact : service.exact)
    (steady : ∀ r start, service.steady r start → r.Steady start)
include new exact steady

theorem Lives.pooled (lives : service.Lives r) : r.isEmbedding = true → r.Pooled := by
  induction lives with
  | @submit r fresh =>
    intro _
    have blank := new r fresh
    rw [Request.New] at blank
    rw [blank]
    unfold Request.Pooled Model.PooledTo
    dsimp only
    split
    · rfl
    · trivial
    · exact fun impossible => (impossible rfl).elim
  | @place r next _ same ih =>
    intro embedding
    have kind : next.isEmbedding = r.isEmbedding := congrArg (fun r => r.isEmbedding) same
    have kept : next.Pooled = r.Pooled := congrArg (fun r => r.Pooled) same
    rw [kind] at embedding
    rw [kept]
    exact ih embedding
  | @sample r next nSpec rows _ generation drafts computed _ verified _ =>
    intro embedding
    have fields := (Request.verify_ok drafts computed
      (show _ = (next, RowsEnd.ofStop none) from verified)).fields
    rw [Request.deliver_fields, Engine.lookupDrafts_fields, fields] at embedding
    cases generation.symm.trans embedding
  | draft _ _ _ _ ih => exact ih
  | pool _ _ chunk some _ rowsOf ih =>
    intro embedding
    exact (ih embedding).poolRows (steady _ _ chunk) some (rowsOf exact)

/-- The terminal chunk of an embedding request carries the pooled vector of its tokens. -/
theorem Ended.pooled {last : Request M} (ended : service.Ended last)
    (embedding : last.isEmbedding = true) (finished : last.finishReason = .stop) :
    ∃ chunk, last.out.getLast? = some chunk ∧ chunk.finished = true ∧
      chunk.embedding = some (if last.normalize
        then M.normalize (M.pooledOf last.pooling last.tokens)
        else M.pooledOf last.pooling last.tokens) := by
  cases ended with
  | @cut r _ status why error _ cause same =>
    have reason : last.finishReason = why := congrArg (fun r => r.finishReason) same
    rw [reason] at finished
    rcases cause with rfl | rfl <;> cases finished
  | @stop r next _ nSpec rows why _ generation drafts computed _ verified same =>
    have fields := (Request.verify_ok drafts computed
      (show _ = (next, RowsEnd.ofStop (some why)) from verified)).fields
    have kind : last.isEmbedding = next.isEmbedding := congrArg (fun r => r.isEmbedding) same
    rw [kind, fields] at embedding
    cases generation.symm.trans embedding
  | @embedded r _ start rows lives kind chunk some whole rowsOf same =>
    have out : last.out = ((r.poolRows rows).embed.close .finishedStopped .stop "").out :=
      congrArg (fun r => r.out) same
    have tokens : last.tokens = r.tokens := congrArg (fun r => r.tokens) same
    have pooling : last.pooling = r.pooling := congrArg (fun r => r.pooling) same
    have normalize : last.normalize = r.normalize := congrArg (fun r => r.normalize) same
    have vector := (lives.pooled new exact steady kind).whole (steady _ _ chunk) some
      (rowsOf exact) whole
    rw [out, tokens, pooling, normalize, ← vector]
    refine ⟨_, getLast?_concat .., rfl, ?_⟩
    show (if r.isEmbedding = true then _ else _) = _
    rw [if_pos kind]
    rfl

end

end Service

namespace Engine

/-- The condition on a step: every embedding request of its batch may be pooled from where
the scheduler has put it. -/
def PoolsSteady (e : Engine M) : Prop :=
  ∀ entry ∈ e.ingest.sched.schedule.1.scheduled, ∀ r ∈ e.ingest.sched.schedule.2.running,
    r.id = entry.req → r.isEmbedding = true → r.Steady r.numComputedTokens

instance (e : Engine M) : Decidable e.PoolsSteady := by
  unfold PoolsSteady
  infer_instance

/-- What a run does for its requests when embedding requests are pooled steadily. -/
def poolingService (M : Model) (cfg : EngineConfig) (actions : List Action) : Service M :=
  { runService M cfg actions with steady := Request.Steady }

theorem steady_content {next : Request M} (same : next.content = r.content)
    (steady : r.Steady start) : next.Steady start := by
  have kept : next.Steady start = r.Steady start := congrArg (fun r => r.Steady start) same
  rw [kept]
  exact steady

/-- In a run whose steps pool steadily, and whose block chains do not collide, an embedding
request gets the pooled vector of its tokens, whatever else the engine serves. -/
theorem run_pooled (M : Model) (cfg : EngineConfig) (actions : List Action)
    (free : CollisionFree cfg.blockSize (chains M cfg actions))
    (steady : ∀ before input, before ++ [.step input] <+: actions →
      (run M cfg before).crashed = false → input.failure = none → (run M cfg before).PoolsSteady)
    {before : List Action} {prompt : List Token} {pooling : Pooling} {normalize : Bool}
    {opts : RequestOptions} {id : Nat}
    (called : Called M cfg actions before (.submitEmbedding prompt pooling normalize opts) id)
    {r : Request M} (done : r ∈ (run M cfg actions).done) (same : r.id = id)
    (finished : r.finishReason = .stop) :
    ∃ chunk, r.out.getLast? = some chunk ∧ chunk.finished = true ∧
      chunk.embedding = some (if normalize then M.normalize (M.pooledOf pooling prompt)
        else M.pooledOf pooling prompt) := by
  have serves : Serves (poolingService M cfg actions) (chains M cfg actions) actions := by
    refine ⟨⟨fun _ submitted => submitted.new, fun free => free, ?_⟩, fun _ submitted => submitted,
      ?_, steady⟩
    · exact fun r next start same steady => steady_content same steady
    · exact fun before within r member entry part => ⟨before, within, r, member, part⟩
  have ended := (serves.run_invariant (prefix_refl actions)).ended r done
  obtain ⟨origin, submitted, asked, tokens⟩ := ended.origin
  have handle : origin.id = id := (congrArg (fun asked => asked.1) asked).trans same
  rw [Submitted.embedding_eq called submitted handle] at asked tokens
  have kind : true = r.isEmbedding := congrArg (fun asked => asked.2.2.1) asked
  have pooled : pooling = r.pooling := congrArg (fun asked => asked.2.2.2.1) asked
  have scaled : normalize = r.normalize := congrArg (fun asked => asked.2.2.2.2) asked
  have prompted : prompt = r.tokens := tokens kind.symm
  rw [pooled, scaled, prompted]
  exact ended.pooled serves.sound.new free (fun _ _ steady => steady) kind.symm finished

/-- Blocks and steps of at most two tokens. -/
def pairConfig : EngineConfig where
  maxModelLen := 8
  blockSize := 2
  blockSize_pos := Nat.two_pos
  numBlocks := 4
  sched := { maxNumBatchedTokens := 2 }

/-- A prompt that is pooled in two chunks. -/
theorem run_pooled_chunks :
    ∃ r ∈ (run Model.counting pairConfig
        [.submitEmbedding [1, 2, 3] .mean true {}, .step {}, .step {}]).done,
      ∃ chunk, r.out.getLast? = some chunk ∧ chunk.finished = true ∧ chunk.embedding =
        some (Model.counting.normalize (Model.counting.pooledOf .mean [1, 2, 3])) := by
  generalize plan : [Action.submitEmbedding [1, 2, 3] .mean true {}, .step {}, .step {}] = actions
  have listed : (run Model.counting pairConfig actions).done.map
      (fun r => (r.id, r.finishReason)) = [(1, .stop)] := by
    rw [← plan]
    decide +kernel
  have held : ∀ before ∈ actions.inits,
      ∀ r ∈ (run Model.counting pairConfig before).newRequests ++
        (run Model.counting pairConfig before).sched.allRequests,
        r.opts.cacheSalt = 0 ∧ r.tokens <+: [1, 2, 3] := by
    rw [← plan]
    decide +kernel
  have free := collisionFree_of_line (by decide +kernel) held
  have steady : ∀ before input, before ++ [.step input] <+: actions →
      (run Model.counting pairConfig before).crashed = false → input.failure = none →
      (run Model.counting pairConfig before).PoolsSteady := by
    rintro before input ⟨rest, same⟩ _ _
    rw [← plan] at same
    rcases before with _ | ⟨first, _ | ⟨second, _ | ⟨third, before⟩⟩⟩ <;>
      simp only [nil_append, cons_append, List.cons.injEq, reduceCtorEq, false_and] at same
    · obtain ⟨rfl, _⟩ := same
      decide +kernel
    · obtain ⟨rfl, rfl, _⟩ := same
      decide +kernel
    · simp at same
  have called : Called Model.counting pairConfig actions []
      (.submitEmbedding [1, 2, 3] .mean true {}) 1 :=
    ⟨⟨[.step {}, .step {}], plan⟩, rfl, rfl⟩
  obtain ⟨r, member, facts⟩ := mem_map.mp
    (show (1, FinishReason.stop) ∈ List.map _ _ by rw [listed]; exact mem_cons_self)
  exact ⟨r, member, run_pooled Model.counting pairConfig actions free steady called member
    (congrArg Prod.fst facts) (congrArg Prod.snd facts)⟩

/-- The vectors of the finished requests, with their ids. -/
def vectors (e : Engine Model.counting) : List (Nat × Option ℚ) :=
  e.done.map (fun r => (r.id, (r.out.getLast?.bind OutputChunk.embedding).map (fun v => v ⟨0, Nat.one_pos⟩)))

/-- The same prompt embedded twice: the second request hits the block of the first, so only
its last token is pooled, and the mean of 1, 2 and 3 comes out as 3. -/
theorem run_pooled_prefixHit :
    vectors (run Model.counting pairConfig
      [.submitEmbedding [1, 2, 3] .mean false {}, .step {}, .step {},
        .submitEmbedding [1, 2, 3] .mean false {}, .step {}]) = [(1, some 2), (2, some 3)] ∧
      Model.counting.pooledOf .mean [1, 2, 3] (0 : Fin 1) = 2 := by
  decide +kernel

end Engine

end Iian
