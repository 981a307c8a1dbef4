import Iian.Characters
import Iian.Streaming

/- Stop strings cut the detokenized text where the first of them to end starts. -/
namespace Iian

open List

variable {M : Model}

/-- Only stop strings, end-of-generation tokens and the length stop the request, and the
stop strings are texts. -/
structure SamplingParams.PlainStops (params : SamplingParams) : Prop where
  minTokens : params.minTokens = 0
  stopTokenIds : params.stopTokenIds = []
  skipSpecialTokens : params.skipSpecialTokens = true
  includeStopStrInOutput : params.includeStopStrInOutput = false
  stop : ∀ stop ∈ params.stop, stop ≠ [] ∧ Lib.Utf8.Valid stop

theorem Clean.shorter {stops : List Bytes} {text longer : Bytes} (clean : Clean stops longer)
    (grows : text <+: longer) : Clean stops text := by
  intro stop member some pos occurs
  obtain ⟨more, rfl⟩ := grows
  exact clean stop member some pos ((occurs_append more (occurs.bound some)).mpr occurs)

namespace Gen

theorem Going.clean_text {gen : Gen M} (going : gen.Going) (plain : gen.params.PlainStops) :
    Clean gen.params.stop gen.text := by
  by_cases searched : gen.Searched
  · exact going.clean searched
  intro stop member
  have first : gen.nOutput = 0 := by
    by_contra more
    exact searched ⟨ne_nil_of_mem member, by rw [plain.minTokens]; omega, more⟩
  have blank : gen.outputs = [] := by
    apply eq_nil_of_length_eq_zero
    rw [outputs_length, first]
  rw [going.text, blank]
  exact clean_nil _ stop member

/-- While a request goes on, no stop string has been completed. -/
theorem Going.clean_detokenized {gen : Gen M} (going : gen.Going)
    (plain : gen.params.PlainStops) {tokens : List Token} (early : tokens <+: gen.outputs) :
    Clean gen.params.stop (M.detokenized gen.params tokens) := by
  obtain ⟨same, unfinished⟩ := M.spell_detokenized gen.params tokens
  intro stop member some pos occurs
  rw [← same] at occurs
  have inside := unfinished.occurs (plain.stop stop member).2 some occurs
  have clean := going.clean_text plain
  rw [going.text] at clean
  exact clean.shorter (Model.spell_grows _ early) stop member some pos inside

/-- A search of the text that is out finds what a search of the whole detokenized text finds. -/
theorem EndsFirst.unfinished {text pending : Bytes} {stops : List Bytes}
    {found : Nat × Nat × Bytes} (ends : EndsFirst text 0 stops (some found))
    (unfinished : Unfinished pending) (valid : ∀ stop ∈ stops, Lib.Utf8.Valid stop) :
    EndsFirst (text ++ pending) 0 stops (some found) := by
  obtain ⟨⟨member, some, length, occurs⟩, least⟩ := ends
  refine ⟨⟨member, some, length, (occurs_append pending (occurs.bound some)).mpr occurs⟩, ?_⟩
  intro stop listed present pos low other
  exact least stop listed present pos low (unfinished.occurs (valid stop listed) present other)

end Gen

variable {last : Request M}

namespace Request

/-- The request has stopped at the first token that completes a stop string, its text is cut
where an occurrence with the smallest end starts, and nothing behind has been sent. -/
structure StopsExactly (r : Request M) : Prop where
  first : ∀ tokens, tokens <+: r.outputs → tokens ≠ r.outputs →
    Clean r.params.stop (M.detokenized r.params tokens)
  uncut : Clean r.params.stop (M.detokenized r.params r.outputs) →
    r.text = M.detokenized r.params r.outputs
  cut : ¬ Clean r.params.stop (M.detokenized r.params r.outputs) →
    r.finishReason = .stop ∧ ∃ bestEnd bestStart,
      Gen.EndsFirst (M.detokenized r.params r.outputs) 0 r.params.stop
        (some (bestEnd, bestStart, r.stopReason)) ∧
      r.text = (M.detokenized r.params r.outputs).take bestStart
  sent : r.streamed = r.text

theorem firstSearchKeeps_of_plain {r : Request M} (plain : r.params.PlainStops) :
    r.FirstSearchKeeps := by
  intro _ found _
  rw [plain.minTokens]
  simp [Model.spell]

/-- A request that is closed while it goes on has not completed a stop string. -/
theorem stopsExactly_of_going {next : Request M} (going : next.Going)
    (plain : next.params.PlainStops) (flushed : last.toGen = next.flush)
    (sent : last.streamed = last.text) : last.StopsExactly := by
  have clean : ∀ tokens, tokens <+: next.outputs →
      Clean next.params.stop (M.detokenized next.params tokens) :=
    fun tokens early => going.clean_detokenized plain early
  refine ⟨?_, ?_, ?_, sent⟩ <;> rw [flushed]
  · exact fun tokens early _ => clean tokens early
  · exact fun _ => going.detokenized
  · exact fun dirty => (dirty (clean _ (prefix_refl _))).elim

theorem Closing.stopsExactly {r next : Request M} (closing : Closing r next last.finishReason)
    (plain : next.params.PlainStops) (flushed : last.toGen = next.flush)
    (sent : last.streamed = last.text) : last.StopsExactly := by
  rcases closing.how with ⟨same, _⟩ | ⟨gen, token, going, params, _, outputs, closes⟩
  · apply stopsExactly_of_going _ plain flushed sent
    rw [same]
    exact closing.streams.going
  · have parameters : gen.params = next.params := params.trans closing.params.symm
    have before : gen.params.PlainStops := by
      rw [parameters]
      exact plain
    have clean : ∀ tokens, tokens <+: gen.outputs →
        Clean gen.params.stop (M.detokenized gen.params tokens) :=
      fun tokens early => going.clean_detokenized before early
    have first : ∀ tokens, tokens <+: gen.outputs ++ [token] → tokens ≠ gen.outputs ++ [token] →
        Clean gen.params.stop (M.detokenized gen.params tokens) := by
      intro tokens early shorter
      exact clean tokens ((prefix_concat_iff.mp early).resolve_left shorter)
    obtain ⟨whole, unfinished⟩ := M.spell_detokenized gen.params (gen.outputs ++ [token])
    have spelled := going.spelled_append token
    rw [going.outputs_append] at spelled
    rw [← spelled] at whole unfinished
    have final : last.params = gen.params ∧ last.outputs = gen.outputs ++ [token] := by
      rw [flushed]
      exact ⟨parameters.symm, outputs⟩
    generalize reason : last.finishReason = why at closes
    cases closes with
    | token halts text pending =>
      -- only an end-of-generation token can stop the request, and its text is hidden
      have hidden : M.shown gen.params token = [] := by
        have eog : (M.isEog token && !gen.params.ignoreEos) = true := by
          apply halts.resolve_right
          rw [before.stopTokenIds]
          simp
        rw [Bool.and_eq_true] at eog
        rw [Model.shown, eog.1, before.skipSpecialTokens]
        rfl
      have kept : Clean gen.params.stop (M.detokenized gen.params (gen.outputs ++ [token])) := by
        rw [Model.detokenized_concat, hidden, append_nil]
        exact clean _ (prefix_refl _)
      refine ⟨?_, ?_, ?_, sent⟩ <;> rw [final.1, final.2]
      · exact first
      · intro _
        rw [flushed, ← whole]
        change next.text ++ next.pending = _
        rw [text, pending]
      · exact fun dirty => (dirty kept).elim
    | length goes => exact stopsExactly_of_going goes plain flushed sent
    | @string bestEnd bestStart best searched found text pending stopReason =>
      have ends := going.endsFirst token
      rw [found] at ends
      have place : bestStart ≤ (gen.append token).text.length := by
        have bound := ends.1.2.2.2.bound ends.1.2.1
        omega
      have best := ends.unfinished unfinished (fun stop member => (before.stop stop member).2)
      rw [whole] at best
      refine ⟨?_, ?_, ?_, sent⟩ <;> rw [final.1, final.2]
      · exact first
      · intro kept
        exact (kept _ best.1.1 best.1.2.1 _ best.1.2.2.2).elim
      intro _
      rw [flushed]
      refine ⟨reason, bestEnd, bestStart, ?_, ?_⟩
      · change Gen.EndsFirst _ _ _ (some (bestEnd, bestStart, next.stopReason))
        rw [stopReason]
        exact best
      · change next.text ++ next.pending = _
        rw [text, pending, append_nil, before.includeStopStrInOutput, ← whole,
          take_append_of_le_length place]
        rfl

end Request

namespace Service

variable {service : Service M}

theorem Ended.stopsExactly (start : ∀ r, service.fresh r → r.Streams ∧ r.outputs = [])
    (ended : service.Ended last) (plain : last.params.PlainStops) : last.StopsExactly := by
  have sent := ended.streamed start (Request.firstSearchKeeps_of_plain plain)
  obtain ⟨r, next, closing, flushed, _⟩ := ended.closing start
  have parameters : next.params.PlainStops := by
    rw [flushed] at plain
    exact plain
  exact closing.stopsExactly parameters flushed sent

end Service

namespace Engine

/-- Stop strings are exact: a request goes on while its detokenized text contains none of
them, and one that has left the engine was stopped and cut by the first to end. -/
theorem run_stopsExactly (M : Model) (cfg : EngineConfig) (actions : List Action) {r : Request M}
    (plain : r.params.PlainStops) :
    (r ∈ (run M cfg actions).newRequests ++ (run M cfg actions).sched.allRequests →
      Clean r.params.stop (M.detokenized r.params r.outputs)) ∧
    (r ∈ (run M cfg actions).done → r.StopsExactly) := by
  have inv := run_invariant M cfg actions
  constructor
  · intro member
    have streams := (inv.lives r member).streams (fun _ submitted => (Submitted.streams submitted).1)
    exact streams.going.clean_detokenized plain (prefix_refl _)
  · intro done
    exact (inv.ended r done).stopsExactly (fun _ => Submitted.streams) plain

/-- Two stop strings, `bé` and `é`, that end together in `abé`. -/
def overlapRun : List Action :=
  [.submit [5] { stop := [[0x62, 0xC3, 0xA9], [0xC3, 0xA9]] } {}, .step {}, .step {}, .step {}]

theorem run_stopsExactly_overlap :
    ∃ r ∈ (run Model.spelling streamConfig overlapRun).done,
      r.StopsExactly ∧ r.text = [0x61] ∧ r.stopReason = [0x62, 0xC3, 0xA9] := by
  have found : ∃ r ∈ (run Model.spelling streamConfig overlapRun).done,
      (r.params.minTokens = 0 ∧ r.params.stopTokenIds = [] ∧ r.params.skipSpecialTokens = true ∧
        r.params.includeStopStrInOutput = false ∧
        ∀ stop ∈ r.params.stop, stop ≠ [] ∧ Lib.Utf8.Valid stop) ∧
      r.text = [0x61] ∧ r.stopReason = [0x62, 0xC3, 0xA9] := by
    decide +kernel
  obtain ⟨r, done, ⟨minTokens, ids, skips, includes, stops⟩, text⟩ := found
  exact ⟨r, done, (run_stopsExactly _ _ _ ⟨minTokens, ids, skips, includes, stops⟩).2 done, text⟩

end Engine

end Iian
