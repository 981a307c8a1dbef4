import Iian.EngineRun
import Iian.Lib.Maxima
import Iian.Lib.Slices
import Iian.Spelling

/- The texts of the chunks of a request against its text: what `deliver` releases while the
request goes on, and what is left to `finish`. -/
namespace Iian

open List

variable {M : Model}

variable {r next last : Request M}

namespace Request

def texts (r : Request M) : List Bytes := r.out.map (fun chunk => chunk.text)

/-- The text of all chunks of a request. -/
def streamed (r : Request M) : Bytes := r.texts.flatten

/-- Where `deliver` has ended a chunk, by the tokens that had been sampled then. -/
def Released (r : Request M) (stop : Nat) : Prop :=
  ∃ chunk ∈ r.out, chunk.nOutputTokens ≤ r.outputs.length ∧
    stop = (M.spell r.params (r.outputs.take chunk.nOutputTokens)).1.length - r.holdback

/-- A request that nothing has stopped, with the part of its text that has been sent. -/
structure Streams (r : Request M) : Prop where
  going : r.Going
  slices : Lib.Slices r.text r.Released r.texts r.textSent
  held : r.textSent ≤ r.text.length - r.holdback

theorem sendTo_eq (r : Request M) : r.sendTo = r.text.length - r.holdback := by
  unfold sendTo
  split <;> omega

theorem holdback_congr (params : next.params = r.params) : next.holdback = r.holdback := by
  rw [holdback, params]
  rfl

theorem Released.grow (params : next.params = r.params) (outputs : r.outputs <+: next.outputs)
    (out : r.out ⊆ next.out) {stop : Nat} (released : r.Released stop) : next.Released stop := by
  obtain ⟨chunk, member, few, same⟩ := released
  refine ⟨chunk, out member, Nat.le_trans few outputs.length_le, ?_⟩
  rw [params, holdback_congr params, ← Lib.take_leads outputs few]
  exact same

/-- Nothing is released that a longer text could take back. -/
theorem Streams.grow (streams : r.Streams) (going : next.Going) (params : next.params = r.params)
    (outputs : r.outputs <+: next.outputs) (out : next.out = r.out)
    (sent : next.textSent = r.textSent) : next.Streams := by
  have text : r.text <+: next.text := by
    rw [streams.going.text, going.text, params]
    exact Model.spell_grows _ outputs
  refine ⟨going, ?_, ?_⟩
  · rw [texts, out, sent]
    exact (streams.slices.grow text).imp
      (fun _ => Released.grow params outputs (out ▸ Subset.refl _))
  · rw [sent, holdback_congr params]
    exact Nat.le_trans streams.held (Nat.sub_le_sub_right text.length_le _)

theorem Streams.deliver (streams : r.Streams) : r.deliver.Streams := by
  have same := r.sendTo_eq
  have grow : ∀ chunk sent {stop}, r.Released stop →
      Released { r with
        textSent := sent, pendingTokens := [], pendingLogprobs := [], out := r.out ++ [chunk] }
        stop := by
    intro chunk sent stop old
    refine Released.grow ?_ ?_ ?_ old
    · rfl
    · exact prefix_rfl
    · exact subset_append_left _ _
  unfold Request.deliver
  split
  · exact streams
  by_cases more : r.sendTo > r.textSent
  · simp only [if_pos more]
    refine ⟨streams.going, ?_, Nat.le_of_eq same⟩
    rw [texts, map_append]
    refine .next (streams.slices.imp fun _ => grow _ _) (Nat.le_of_lt more)
      (same ▸ Nat.sub_le _ _) ?_
    refine ⟨_, mem_append_right _ mem_cons_self, Nat.le_of_eq r.outputs_length.symm, ?_⟩
    change r.sendTo = (M.spell r.params (r.outputs.take r.nOutput)).1.length - r.holdback
    rw [take_of_length_le (Nat.le_of_eq r.outputs_length), ← streams.going.text]
    exact same
  · simp only [if_neg more]
    refine ⟨streams.going, ?_, streams.held⟩
    rw [texts, map_append]
    exact .blank (streams.slices.imp fun _ => grow _ _)

/-- The terminal chunk carries the rest of the text. -/
theorem close_slices {cut : Nat → Prop} (slices : Lib.Slices r.text cut r.texts r.textSent)
    (status : RequestStatus) (why : FinishReason) (error : String) :
    Lib.Slices (r.close status why error).text
      (fun stop => cut stop ∨ stop = (r.close status why error).text.length)
      (r.close status why error).texts (r.close status why error).text.length := by
  have text : (r.close status why error).text = r.text ++ r.pending := rfl
  have chunk : (r.close status why error).texts =
      r.texts ++ [Lib.slice (r.text ++ r.pending) r.textSent (r.text ++ r.pending).length] := by
    rw [texts, close, map_append]
    congr 1
    change [if r.textSent < (r.text ++ r.pending).length then _ else _] = _
    rw [Lib.slice, take_of_length_le (by rw [length_drop])]
    split
    · rfl
    · rename_i full
      rw [drop_of_length_le (Nat.le_of_not_lt full)]
  have grown : Lib.Slices (r.text ++ r.pending) (fun stop => cut stop ∨
      stop = (r.text ++ r.pending).length) r.texts r.textSent :=
    (slices.grow (prefix_append _ _)).imp (fun _ => .inl)
  rw [text, chunk]
  exact grown.next grown.bound (Nat.le_refl _) (.inr rfl)

/-- A request with nothing sampled and nothing sent. -/
theorem Streams.start {r : Request M} (prompt : r.nPrompt = r.tokens.length) (text : r.text = [])
    (pending : r.pending = []) (offset : r.stopCheckOffset = 0) (out : r.out = [])
    (sent : r.textSent = 0) : r.Streams := by
  refine ⟨.start prompt text pending offset, ?_, by omega⟩
  rw [texts, out, sent]
  exact .nil

theorem le_holdback {stop : Bytes} (member : stop ∈ r.params.stop) :
    stop.length ≤ r.holdback + 1 := by
  have bound : stop.length - 1 ≤ r.holdback :=
    (Lib.le_foldl_max (fun stop => stop.length - 1) r.params.stop 0).2 stop member
  omega

/-- The place at which a stop string that was found cuts the text. -/
def stopCut (r : Request M) (found : Nat × Nat × Bytes) : Nat :=
  if r.params.includeStopStrInOutput then found.1 else found.2.1

/-- The first search for stop strings, after `min_tokens` tokens, finds nothing that starts in
the text which may have been sent after the token before. -/
def FirstSearchKeeps (r : Request M) : Prop :=
  r.params.minTokens.toNat ≤ r.nOutput →
    ∀ found ∈ Gen.bestStop (M.spell r.params (r.outputs.take r.params.minTokens.toNat)).1 0
      r.params.stop,
      (M.spell r.params (r.outputs.take (r.params.minTokens.toNat - 1))).1.length - r.holdback ≤
        r.stopCut found

instance (r : Request M) : Decidable r.FirstSearchKeeps := by
  unfold FirstSearchKeeps
  infer_instance

/-- How request `r` has become `next`, which is closed with reason `why`: from outside, or by
the token it has just got. -/
structure Closing (r next : Request M) (why : FinishReason) : Prop where
  streams : r.Streams
  params : next.params = r.params
  out : next.out = r.out
  sent : next.textSent = r.textSent
  how : (next.toGen = r.toGen ∧ (why = .abort ∨ why = .error ∨ r.outputs = [])) ∨
    ∃ (gen : Gen M) (token : Token), gen.Going ∧ gen.params = r.params ∧
      r.outputs <+: gen.outputs ∧ next.outputs = gen.outputs ++ [token] ∧
      gen.Closes token next.toGen why

/-- A stop string is cut off behind everything that has been sent. -/
theorem Closing.cut_keeps {gen : Gen M} {token : Token} (going : gen.Going)
    (params : gen.params = next.params) (outputs : next.outputs = gen.outputs ++ [token])
    (searched : (gen.append token).Searched) (keeps : next.FirstSearchKeeps)
    {found : Nat × Nat × Bytes}
    (search : Gen.bestStop (gen.append token).text gen.stopCheckOffset gen.params.stop =
      some found) : gen.text.length - next.holdback ≤ next.stopCut found := by
  obtain ⟨bestEnd, bestStart, best⟩ := found
  have ends := going.endsFirst token
  rw [search] at ends
  obtain ⟨⟨member, some, length, occurs⟩, _⟩ := ends
  by_cases before : gen.Searched
  · have late : gen.text.length < bestEnd := by
      by_contra early
      obtain ⟨more, same⟩ := gen.text_append token
      rw [← same] at occurs
      exact going.clean before _ member some _ ((occurs_append more (by omega)).mp occurs)
    rw [params] at member
    have held := le_holdback member
    unfold stopCut
    dsimp only
    split <;> omega
  · rw [going.unsearched before] at search
    have count := going.nOutput_append token
    have enough : gen.params.minTokens ≤ ((gen.append token).nOutput : Int) := searched.2.1
    by_cases first : gen.nOutput = 0
    · have blank : gen.outputs = [] := eq_nil_of_length_eq_zero (by
        rw [Gen.outputs_length, first])
      rw [going.text, blank]
      simp [Model.spell]
    · have opens : gen.params.minTokens.toNat = gen.nOutput + 1 := by
        have waits : ¬ gen.params.minTokens ≤ (gen.nOutput : Int) :=
          fun ready => before ⟨searched.1, ready, first⟩
        omega
      have size := gen.outputs_length
      have all : next.outputs.take (gen.nOutput + 1) = gen.outputs ++ [token] := by
        rw [outputs]
        apply take_of_length_le
        rw [length_append, size]
        rfl
      have front : next.outputs.take gen.nOutput = gen.outputs := by
        rw [outputs, ← size, take_left]
      have total : next.nOutput = gen.nOutput + 1 := by
        rw [← Gen.outputs_length, outputs, length_append, size]
        rfl
      have kept := keeps (by rw [← params, opens, total]) (bestEnd, bestStart, best)
      rw [← params, opens, Nat.add_sub_cancel, all, front, ← going.text] at kept
      apply kept
      rw [← going.outputs_append, ← going.spelled_append]
      exact search

/-- Whatever closes a request, the chunks before are slices of its final text. -/
theorem Closing.slices {why : FinishReason} (closing : Closing r next why)
    (keeps : next.FirstSearchKeeps) : Lib.Slices next.text r.Released next.texts next.textSent := by
  have streams := closing.streams
  rw [texts, closing.out, closing.sent]
  rcases closing.how with ⟨same, _⟩ | ⟨gen, token, going, params, longer, outputs, closes⟩
  · rw [same]
    exact streams.slices
  have early : r.text <+: gen.text := by
    rw [streams.going.text, going.text, params]
    exact Model.spell_grows _ longer
  have grown := streams.slices.grow (early.trans (gen.text_append token))
  have parameters : gen.params = next.params := params.trans closing.params.symm
  cases closes with
  | token _ text _ =>
    rw [text]
    exact grown
  | length final =>
    have text : next.text = (gen.append token).text := by
      rw [final.text, outputs, ← parameters, ← going.outputs_append, ← going.spelled_append]
    rw [text]
    exact grown
  | @string bestEnd bestStart best searched found text _ _ =>
    have cut := Closing.cut_keeps going parameters outputs searched keeps found
    have sent : r.textSent ≤ next.stopCut (bestEnd, bestStart, best) := by
      have held := streams.held
      have length := early.length_le
      rw [holdback_congr closing.params] at cut
      omega
    rw [text, parameters]
    change Lib.Slices ((gen.append token).text.take (next.stopCut (bestEnd, bestStart, best)))
      _ _ _
    apply grown.congr (Nat.le_refl _)
    · rw [length_take]
      exact Nat.le_min.mpr ⟨sent, grown.bound⟩
    · rw [take_take, Nat.min_eq_left sent]

end Request

namespace Service

variable {service : Service M}

theorem Lives.streams (start : ∀ r, service.fresh r → r.Streams) (lives : service.Lives r) :
    r.Streams := by
  induction lives with
  | submit fresh => exact start _ fresh
  | @place r next _ same ih =>
    have gen : next.toGen = r.toGen := congrArg (fun r => r.toGen) same
    have going : next.Going := by
      rw [gen]
      exact ih.going
    exact ih.grow going (congrArg (fun r => r.params) same) (by rw [gen])
      (congrArg (fun r => r.out) same) (congrArg (fun r => r.textSent) same)
  | @sample r next nSpec rows _ _ drafts computed _ verified ih =>
    have facts := Request.verify_ok drafts computed
      (show _ = (next, RowsEnd.ofStop none) from verified)
    obtain ⟨going, outputs⟩ := (Request.verify_going ih.going verified).1 rfl
    have fields := facts.fields
    have streams : next.Streams := ih.grow going facts.params outputs
      (congrArg (fun r => r.out) fields) (congrArg (fun r => r.textSent) fields)
    apply Request.Streams.deliver
    apply streams.grow <;> rw [Engine.lookupDrafts_fields]
    exact going
  | draft _ _ _ _ ih => exact ih.grow ih.going rfl (prefix_refl _) rfl rfl
  | pool _ _ _ _ _ _ ih => exact ih.grow ih.going rfl (prefix_refl _) rfl rfl

theorem Lives.outputs_nil (start : ∀ r, service.fresh r → r.outputs = []) (lives : service.Lives r)
    (embedding : r.isEmbedding = true) : r.outputs = [] := by
  obtain ⟨first, fresh, _, same⟩ := lives.origin
  rw [← same embedding]
  exact start first fresh

section

variable (start : ∀ r, service.fresh r → r.Streams ∧ r.outputs = []) (ended : service.Ended last)
include start ended

theorem Ended.closed :
    ∃ r next status why error, Request.Closing r next why ∧
      last.content = (next.close status why error).content := by
  have fresh : ∀ r, service.fresh r → r.Streams := fun r fresh => (start r fresh).1
  cases ended with
  | @cut r last status why error lives kind same =>
    refine ⟨r, r, status, why, error, ⟨lives.streams fresh, rfl, rfl, rfl, ?_⟩, same⟩
    exact .inl ⟨rfl, kind.imp_right .inl⟩
  | @stop r next last nSpec rows why lives _ drafts computed _ verified same =>
    have facts := Request.verify_ok drafts computed
      (show _ = (next, RowsEnd.ofStop (some why)) from verified)
    have streams := lives.streams fresh
    refine ⟨r, next, _, why, _, ⟨streams, facts.params, congrArg (fun r => r.out) facts.fields,
      congrArg (fun r => r.textSent) facts.fields, ?_⟩, same⟩
    exact .inr ((Request.verify_going streams.going verified).2 why rfl)
  | @embedded r last _ rows lives embedding _ _ _ _ same =>
    refine ⟨r, (r.poolRows rows).embed, _, _, _, ⟨lives.streams fresh, rfl, rfl, rfl, ?_⟩, same⟩
    exact .inl ⟨rfl, .inr (.inr
      (lives.outputs_nil (fun r fresh => (start r fresh).2) embedding))⟩

/-- How a request has left the engine, and how its chunks lie in its final text. -/
theorem Ended.closing :
    ∃ r next : Request M, r.Closing next last.finishReason ∧ last.toGen = next.flush ∧
      last.out.dropLast = r.out ∧ (last.FirstSearchKeeps →
        Lib.Slices last.text (fun stop => r.Released stop ∨ stop = last.text.length) last.texts
          last.text.length) := by
  obtain ⟨r, next, status, why, error, closing, same⟩ := ended.closed start
  have reason : last.finishReason = why := congrArg (fun r => r.finishReason) same
  have flushed : last.toGen = next.flush := congrArg (fun r => r.toGen) same
  have texts : last.texts = (next.close status why error).texts := congrArg (fun r => r.texts) same
  refine ⟨r, next, ?_, flushed, ?_, ?_⟩
  · rw [reason]
    exact closing
  · rw [show last.out = (next.close status why error).out from congrArg (fun r => r.out) same,
      Request.close, dropLast_concat, closing.out]
  intro keeps
  have kept : next.FirstSearchKeeps := by
    have equal : last.FirstSearchKeeps = (next.close status why error).FirstSearchKeeps :=
      congrArg (fun r => r.FirstSearchKeeps) same
    rw [equal] at keeps
    exact keeps
  rw [texts, flushed]
  exact Request.close_slices (closing.slices kept) status why error

/-- A request that has left the engine has sent its text, and nothing else. -/
theorem Ended.streamed (keeps : last.FirstSearchKeeps) : last.streamed = last.text := by
  obtain ⟨r, next, _, _, _, slices⟩ := ended.closing start
  rw [Request.streamed, (slices keeps).flatten, take_length]

end

end Service

namespace Engine

theorem Submitted.streams {cfg : EngineConfig} {actions : List Action}
    (submitted : Submitted M cfg actions r) : r.Streams ∧ r.outputs = [] := by
  cases submitted with
  | generation _ _ => exact ⟨.start rfl rfl rfl rfl rfl rfl, drop_length⟩
  | embedding _ => exact ⟨.start rfl rfl rfl rfl rfl rfl, drop_length⟩

/-- The chunks of a request that has left the engine are its final text, unless its first
search for stop strings comes too late. -/
theorem run_streamed (M : Model) (cfg : EngineConfig) (actions : List Action) {r : Request M}
    (done : r ∈ (run M cfg actions).done) (keeps : r.FirstSearchKeeps) : r.streamed = r.text :=
  ((run_invariant M cfg actions).ended r done).streamed (fun _ => Submitted.streams) keeps

def streamConfig : EngineConfig where
  maxModelLen := 20
  blockSize := 2
  blockSize_pos := Nat.two_pos
  numBlocks := 8

/-- A request that may not stop before its second token: `a`, then `b`. -/
def gatedRun (stop : Bytes) : List Action :=
  [.submit [5] { minTokens := 2, stop := [stop] } {}, .step {}, .step {}]

theorem run_streamed_gated :
    ∃ r ∈ (run Model.spelling streamConfig (gatedRun [0x62])).done,
      r.text = [0x61] ∧ r.streamed = r.text := by
  have found : ∃ r ∈ (run Model.spelling streamConfig (gatedRun [0x62])).done,
      r.text = [0x61] ∧ r.FirstSearchKeeps := by
    decide +kernel
  obtain ⟨r, done, text, keeps⟩ := found
  exact ⟨r, done, text, run_streamed _ _ _ done keeps⟩

/-- The first token is sent before the search that finds a stop string in it. -/
theorem run_retracts :
    ∃ r ∈ (run Model.spelling streamConfig (gatedRun [0x61])).done,
      r.isEmbedding = false ∧ r.streamed = [0x61] ∧ r.text = [] := by
  decide +kernel

end Engine

end Iian
